import Nyet.Cache.AnswerCalls
import Nyet.Cache.VerdictCalls

/-!
# Expiry in real time

Both caches measure age in the nanoseconds of `get_timestamp_ns`, which multiplies the
performance counter by 10^9 before it divides by the frequency. The product is taken on
64 bits, so it wraps once the counter has passed 2^64 / 10^9 ticks, about half an hour
at 10 MHz. `timely_expiry_iff` says up to which reading the caches treat every entry
as its age demands.
-/

namespace Nyet

/-- `get_timestamp_ns`, from the counter and its frequency. -/
def getTimestampNs (now freq : UInt64) : UInt64 := now * 1000000000 / freq

/-- The age of an entry, in ticks, is more than a second past its ttl. -/
def Outlived (freq : UInt64) (ttl : UInt32) (stored now : UInt64) : Prop :=
  (ttl.toNat + 1) * freq.toNat < now.toNat - stored.toNat

/-- The age of an entry, in ticks, is within its ttl. -/
def WithinTtl (freq : UInt64) (ttl : UInt32) (stored now : UInt64) : Prop :=
  now.toNat - stored.toNat ≤ ttl.toNat * freq.toNat

section

variable {capacity : Nat}

/-! ## What becomes of a stale entry and of a fresh one -/

/-- The verdict in the slot is treated as expired: a lookup of its domain misses, an
insert that goes over all slots clears the slot or takes it, an insert of its own domain
does not refresh it, and pruning clears it. -/
structure DnsCache.Drops (cache : DnsCache capacity) (now : UInt64) (i : Fin capacity) : Prop where
  lookup : (dnsCacheLookup cache now (cache.entries i).domain).1 = none
  insert : ∀ domain action ttl,
    (dnsCachePlace cache now domain action ttl).placement ≠ .refreshed →
    (dnsCachePlace cache now domain action ttl).entries i = .zero ∨
      (dnsCachePlace cache now domain action ttl).entries i = verdictEntry now domain action ttl
  renew : ∀ action ttl,
    (dnsCachePlace cache now (cache.entries i).domain action ttl).placement ≠ .refreshed
  prune : (dnsCachePruneExpired cache now).2.entries i = .zero

/-- The verdict in the slot is treated as fresh: a lookup of its domain returns it, an
insert of another domain leaves it unless it evicts, an insert of its own refreshes it,
and pruning leaves it. -/
structure DnsCache.Keeps (cache : DnsCache capacity) (now : UInt64) (i : Fin capacity) : Prop where
  lookup : (dnsCacheLookup cache now (cache.entries i).domain).1 =
    some ((cache.entries i).action, (cache.entries i).ttl)
  insert : ∀ domain action ttl, domain ≠ (cache.entries i).domain →
    (dnsCachePlace cache now domain action ttl).placement ≠ .evicting →
    (dnsCachePlace cache now domain action ttl).entries i = cache.entries i
  renew : ∀ action ttl,
    (dnsCachePlace cache now (cache.entries i).domain action ttl).placement = .refreshed
  prune : (dnsCachePruneExpired cache now).2.entries i = cache.entries i

/-- The answer in the slot is treated as expired. An insert looks at the slots in the
window of its key only. -/
structure AnswerCache.Drops (cache : AnswerCache capacity) (now : UInt64) (i : Fin capacity) :
    Prop where
  lookup : (answerCacheLookup cache now (cache.entries i).domain (cache.entries i).qtype).1 = none
  insert : ∀ domain qtype answer, i ∈ window cache (hashKey domain qtype) →
    (answerCachePlace cache now domain qtype answer).placement ≠ .refreshed →
    (answerCachePlace cache now domain qtype answer).entries i = .zero ∨
      (answerCachePlace cache now domain qtype answer).entries i =
        recordFor now domain qtype answer
  renew : ∀ answer, (answerCachePlace cache now (cache.entries i).domain
    (cache.entries i).qtype answer).placement ≠ .refreshed
  prune : (answerCachePruneExpired cache now).2.entries i = .zero

/-- The answer in the slot is treated as fresh. -/
structure AnswerCache.Keeps (cache : AnswerCache capacity) (now : UInt64) (i : Fin capacity) :
    Prop where
  lookup : (answerCacheLookup cache now (cache.entries i).domain (cache.entries i).qtype).1 =
    some (copyOut (cache.entries i))
  insert : ∀ domain qtype answer,
    (domain, qtype) ≠ ((cache.entries i).domain, (cache.entries i).qtype) →
    (answerCachePlace cache now domain qtype answer).placement ≠ .evicting →
    (answerCachePlace cache now domain qtype answer).entries i = cache.entries i
  renew : ∀ answer, (answerCachePlace cache now (cache.entries i).domain
    (cache.entries i).qtype answer).placement = .refreshed
  prune : (answerCachePruneExpired cache now).2.entries i = cache.entries i

/-- **Timely expiry up to a reading**: the timestamps of the readings so far do not
decrease, and an entry stored at one of them, with its timestamp since unmoved, is
treated as expired at a later one if it has outlived its ttl, and as fresh if it has
not reached it. -/
def TimelyExpiry (freq last : UInt64) : Prop :=
  (∀ c₀ c₁, c₀ ≤ c₁ → c₁ ≤ last → getTimestampNs c₀ freq ≤ getTimestampNs c₁ freq) ∧
  ∀ c₀ c₁, c₀ ≤ c₁ → c₁ ≤ last → ∀ ttl,
    (∀ (capacity : Nat) (cache : DnsCache capacity) (i : Fin capacity), cache.WellKept →
      (cache.entries i).valid = true → (cache.entries i).timestampNs = getTimestampNs c₀ freq →
      (cache.entries i).ttl = ttl →
      (Outlived freq ttl c₀ c₁ → cache.Drops (getTimestampNs c₁ freq) i) ∧
      (WithinTtl freq ttl c₀ c₁ → cache.Keeps (getTimestampNs c₁ freq) i)) ∧
    (∀ (capacity : Nat) (cache : AnswerCache capacity) (i : Fin capacity), cache.WellPlaced →
      (cache.entries i).valid = true → (cache.entries i).timestampNs = getTimestampNs c₀ freq →
      (cache.entries i).ttlSeconds = ttl →
      (Outlived freq ttl c₀ c₁ → cache.Drops (getTimestampNs c₁ freq) i) ∧
      (WithinTtl freq ttl c₀ c₁ → cache.Keeps (getTimestampNs c₁ freq) i))

/-! ## The test decides -/

/-- Readings are compared as numbers, -/
theorem rank64 (a b : UInt64) : a < b ↔ a.toNat < b.toNat := UInt64.lt_iff_toNat_lt

/-- and `UINT64_MAX` is the last. -/
theorem rank64_latest (a : UInt64) : a.toNat ≤ (0xffffffffffffffff : UInt64).toNat :=
  Nat.le_of_lt_succ a.toNat_lt

variable {now : UInt64}

/-- What `dns_cache.c` does with an entry follows from its expiry test. -/
theorem DnsCache.WellKept.drops {cache : DnsCache capacity} (h : cache.WellKept)
    {i : Fin capacity} (hvalid : (cache.entries i).valid = true)
    (hexp : dnsEntryExpired (cache.entries i) now = true) : cache.Drops now i := by
  refine ⟨?_, fun domain action ttl => ?_, fun action ttl hrefreshed => ?_, ?_⟩
  · rcases dnsCacheLookup_slots cache now (cache.entries i).domain with
      ⟨hnone, -⟩ | ⟨j, hfind, hfresh, -⟩
    · exact hnone
    · rw [h.find_eq ⟨hvalid, rfl⟩] at hfind
      cases hfind
      rw [hexp] at hfresh
      cases hfresh
  · exact Lib.place_expired (dnsSlots now (fnv1a domain) domain) DnsCacheEntry.zero _
      (firstSlot cache) cache.count _ _ (List.mem_finRange i) hvalid hexp
  · -- a refresh would have been of this entry, and it has expired
    obtain ⟨hlive, hholds⟩ := Lib.place_refreshed (dnsSlots now _ _) DnsCacheEntry.zero rfl _
      (firstSlot cache) (List.finRange capacity) cache.entries cache.count _ _ hrefreshed
    have hidx := h.unique _ i hlive.valid hvalid (DnsCacheEntry.isFor_iff.mp hholds).2
    have hfresh := hlive.unexpired
    rw [hidx] at hfresh
    exact Bool.false_ne_true (hfresh.symm.trans hexp)
  · exact if_pos (Bool.and_eq_true_iff.mpr ⟨hvalid, hexp⟩)

theorem DnsCache.WellKept.keeps {cache : DnsCache capacity} (h : cache.WellKept)
    {i : Fin capacity} (hvalid : (cache.entries i).valid = true)
    (hexp : dnsEntryExpired (cache.entries i) now = false) : cache.Keeps now i := by
  refine ⟨?_, fun domain action ttl hd hnot => ?_, fun action ttl => ?_, ?_⟩
  · have hfind : dnsCacheFind cache (cache.entries i).domain = some i := h.find_eq ⟨hvalid, rfl⟩
    rcases dnsCacheLookup_slots cache now (cache.entries i).domain with
      ⟨-, -, -, hexpired⟩ | ⟨j, hj, -, hsome, -⟩
    · rw [hexpired (h.short i hvalid) i hfind] at hexp
      cases hexp
    · rw [hfind] at hj
      cases hj
      exact hsome
  · -- another domain's insert looks for its own key, and evicts only where it has to
    have hother : (cache.entries i).isFor (fnv1a domain) domain = false := by
      rw [Bool.eq_false_iff]
      exact fun hfor => hd (DnsCacheEntry.isFor_iff.mp hfor).2.symm
    rcases Lib.place_live rank64 (dnsSlots now (fnv1a domain) domain) DnsCacheEntry.zero
        rank64_latest (firstSlot cache) (List.finRange capacity) cache.entries cache.count
        (verdictEntry now domain action ttl)
        fun entry => { entry with action := action, ttl := ttl, timestampNs := now } with
      ⟨hothers, -, -⟩ | ⟨-, hevicting, -⟩
    · exact hothers i ⟨hvalid, hexp⟩ hother
    · exact absurd hevicting hnot
  · exact Lib.place_refreshes (dnsSlots now _ _) DnsCacheEntry.zero _ (firstSlot cache) cache.count
      _ _ (List.mem_finRange i) ⟨hvalid, hexp⟩
      (DnsCacheEntry.isFor_iff.mpr ⟨h.hash i hvalid, rfl⟩)
  · refine if_neg fun hdead => ?_
    exact Bool.false_ne_true (hexp.symm.trans (Bool.and_eq_true_iff.mp hdead).2)

/-- What `answer_cache.c` does with an entry follows from its expiry test. -/
theorem AnswerCache.WellPlaced.drops {cache : AnswerCache capacity} (h : cache.WellPlaced)
    {i : Fin capacity} (hvalid : (cache.entries i).valid = true)
    (hexp : entryExpired (cache.entries i) now = true) : cache.Drops now i := by
  refine ⟨?_, fun domain qtype answer hi => ?_, fun answer hrefreshed => ?_, ?_⟩
  · cases hserved : (answerCacheLookup cache now (cache.entries i).domain
      (cache.entries i).qtype).1 with
    | none => rfl
    | some answer =>
      obtain ⟨j, hprobe, hfresh⟩ := answerCacheLookup_isSome (Option.isSome_of_eq_some hserved)
      rw [h.probe_eq ⟨hvalid, rfl, rfl⟩] at hprobe
      cases hprobe
      rw [hexp] at hfresh
      cases hfresh
  · exact Lib.place_expired (answerSlots now _ qtype domain) AnswerEntry.zero _
      (slotAt cache _ 0) cache.count _ _ hi hvalid hexp
  · obtain ⟨hlive, hholds⟩ := Lib.place_refreshed (answerSlots now _ _ _) AnswerEntry.zero rfl _
      (slotAt cache _ 0) (Nyet.window cache _) cache.entries cache.count _ _ hrefreshed
    obtain ⟨-, hq, hd⟩ := AnswerEntry.isFor_iff.mp hholds
    have hidx := h.unique _ i hlive.valid hvalid hd hq
    have hfresh := hlive.unexpired
    rw [hidx] at hfresh
    exact Bool.false_ne_true (hfresh.symm.trans hexp)
  · exact if_pos (Bool.and_eq_true_iff.mpr ⟨hvalid, hexp⟩)

theorem AnswerCache.WellPlaced.keeps {cache : AnswerCache capacity} (h : cache.WellPlaced)
    {i : Fin capacity} (hvalid : (cache.entries i).valid = true)
    (hexp : entryExpired (cache.entries i) now = false) : cache.Keeps now i := by
  refine ⟨answerCacheLookup_serves h ⟨hvalid, rfl, rfl⟩ hexp, fun domain qtype answer hkey hnot => ?_,
    fun answer => ?_, ?_⟩
  · have hother : (cache.entries i).isFor (hashKey domain qtype) qtype domain = false := by
      rw [Bool.eq_false_iff]
      intro hfor
      obtain ⟨-, hq, hd⟩ := AnswerEntry.isFor_iff.mp hfor
      exact hkey (Prod.ext hd.symm hq.symm)
    rcases Lib.place_live rank64 (answerSlots now (hashKey domain qtype) qtype domain)
        AnswerEntry.zero rank64_latest (slotAt cache (hashKey domain qtype) 0)
        (Nyet.window cache (hashKey domain qtype)) cache.entries cache.count
        (recordFor now domain qtype answer) (refreshRecord now answer) with
      ⟨hothers, -, -⟩ | ⟨-, hevicting, -⟩
    · exact hothers i ⟨hvalid, hexp⟩ hother
    · exact absurd hevicting hnot
  · exact Lib.place_refreshes (answerSlots now _ _ _) AnswerEntry.zero _ (slotAt cache _ 0)
      cache.count _ _ (h.window i hvalid) ⟨hvalid, hexp⟩
      (AnswerEntry.isFor_iff.mpr ⟨h.hash i hvalid, rfl, rfl⟩)
  · refine if_neg fun hdead => ?_
    exact Bool.false_ne_true (hexp.symm.trans (Bool.and_eq_true_iff.mp hdead).2)

end

/-! ## The arithmetic -/

/-- Before the product wraps. -/
theorem getTimestampNs_toNat {c : UInt64} (freq : UInt64) (hc : c.toNat * 10 ^ 9 < 2 ^ 64) :
    (getTimestampNs c freq).toNat = c.toNat * 10 ^ 9 / freq.toNat := by
  rw [getTimestampNs]
  rw [UInt64.toNat_div, UInt64.toNat_mul]
  exact congrArg (· / freq.toNat) (Nat.mod_eq_of_lt hc)

/-- The term added to a timestamp does not wrap. -/
theorem ttl_ns_toNat (ttl : UInt32) :
    (ttl.toUInt64 * 1000000000).toNat = ttl.toNat * 10 ^ 9 := by
  have httl := ttl.toNat_lt
  rw [UInt64.toNat_mul, UInt32.toNat_toUInt64, show (1000000000 : UInt64).toNat = 10 ^ 9 from rfl]
  exact Nat.mod_eq_of_lt (by omega)

/-- Before the sum wraps. -/
theorem expiredAt_iff {stored now : UInt64} {ttl : UInt32}
    (hsum : stored.toNat + ttl.toNat * 10 ^ 9 < 2 ^ 64) :
    expiredAt stored ttl now = true ↔ stored.toNat + ttl.toNat * 10 ^ 9 < now.toNat := by
  rw [expiredAt]
  rw [decide_eq_true_eq, UInt64.lt_iff_toNat_lt, UInt64.toNat_add, ttl_ns_toNat,
    Nat.mod_eq_of_lt hsum]

/-- An entry has expired when it is stored exactly if the sum wraps. -/
theorem expiredAt_self_iff {now : UInt64} {ttl : UInt32} :
    expiredAt now ttl now = true ↔ 2 ^ 64 ≤ now.toNat + ttl.toNat * 10 ^ 9 := by
  have hnow := now.toNat_lt
  have httl := ttl.toNat_lt
  rw [expiredAt]
  rw [decide_eq_true_eq, UInt64.lt_iff_toNat_lt, UInt64.toNat_add, ttl_ns_toNat]
  omega

/-- Rounding down loses less than a second of age, -/
theorem outlived_expired {c₀ c₁ freq ttl : Nat} (hf : 0 < freq)
    (hage : (ttl + 1) * freq < c₁ - c₀) :
    c₀ * 10 ^ 9 / freq + ttl * 10 ^ 9 < c₁ * 10 ^ 9 / freq := by
  have hle : c₀ * 10 ^ 9 + (ttl + 1) * 10 ^ 9 * freq ≤ c₁ * 10 ^ 9 := by
    calc c₀ * 10 ^ 9 + (ttl + 1) * 10 ^ 9 * freq = (c₀ + (ttl + 1) * freq) * 10 ^ 9 := by ring
      _ ≤ c₁ * 10 ^ 9 := Nat.mul_le_mul_right _ (by omega)
  have hdiv := Nat.div_le_div_right (c := freq) hle
  rw [Nat.add_mul_div_right _ _ hf] at hdiv
  omega

/-- and makes no entry look older than it is. -/
theorem withinTtl_fresh {c₀ c₁ freq ttl : Nat} (hf : 0 < freq) (hage : c₁ - c₀ ≤ ttl * freq) :
    c₁ * 10 ^ 9 / freq ≤ c₀ * 10 ^ 9 / freq + ttl * 10 ^ 9 := by
  have hle : c₁ * 10 ^ 9 ≤ c₀ * 10 ^ 9 + ttl * 10 ^ 9 * freq := by
    calc c₁ * 10 ^ 9 ≤ (c₀ + ttl * freq) * 10 ^ 9 := Nat.mul_le_mul_right _ (by omega)
      _ = c₀ * 10 ^ 9 + ttl * 10 ^ 9 * freq := by ring
  have hdiv := Nat.div_le_div_right (c := freq) hle
  rwa [Nat.add_mul_div_right _ _ hf] at hdiv

/-! ## Up to which reading -/

/-- Readings whose products fit, and whose timestamps leave room for every ttl. -/
structure InRange (freq last : UInt64) : Prop where
  product : last.toNat * 10 ^ 9 < 2 ^ 64
  sum : last.toNat * 10 ^ 9 / freq.toNat + (2 ^ 32 - 1) * 10 ^ 9 < 2 ^ 64

section

variable {freq last : UInt64}

theorem InRange.timestamp (h : InRange freq last) {c : UInt64} (hc : c ≤ last) :
    (getTimestampNs c freq).toNat = c.toNat * 10 ^ 9 / freq.toNat := by
  have hle : c.toNat * 10 ^ 9 ≤ last.toNat * 10 ^ 9 :=
    Nat.mul_le_mul_right _ (UInt64.le_iff_toNat_le.mp hc)
  exact getTimestampNs_toNat freq (Nat.lt_of_le_of_lt hle h.product)

theorem InRange.expired_iff (h : InRange freq last) {c₀ c₁ : UInt64} (hc : c₀ ≤ c₁)
    (hlast : c₁ ≤ last) (ttl : UInt32) :
    expiredAt (getTimestampNs c₀ freq) ttl (getTimestampNs c₁ freq) = true ↔
      c₀.toNat * 10 ^ 9 / freq.toNat + ttl.toNat * 10 ^ 9 < c₁.toNat * 10 ^ 9 / freq.toNat := by
  have hc₀ := UInt64.le_trans hc hlast
  have hstored : (getTimestampNs c₀ freq).toNat ≤ last.toNat * 10 ^ 9 / freq.toNat := by
    rw [h.timestamp hc₀]
    exact Nat.div_le_div_right (Nat.mul_le_mul_right _ (UInt64.le_iff_toNat_le.mp hc₀))
  have hsum := h.sum
  have httl := ttl.toNat_lt
  rw [expiredAt_iff (by omega), h.timestamp hc₀, h.timestamp hlast]

/-- **In range everything expires on time.** -/
theorem InRange.timely (h : InRange freq last) (hf : 0 < freq.toNat) : TimelyExpiry freq last := by
  constructor
  · intro c₀ c₁ hc hlast
    rw [UInt64.le_iff_toNat_le, h.timestamp (UInt64.le_trans hc hlast), h.timestamp hlast]
    exact Nat.div_le_div_right (Nat.mul_le_mul_right _ (UInt64.le_iff_toNat_le.mp hc))
  · intro c₀ c₁ hc hlast ttl
    have hexpired : Outlived freq ttl c₀ c₁ →
        expiredAt (getTimestampNs c₀ freq) ttl (getTimestampNs c₁ freq) = true := fun hage =>
      (h.expired_iff hc hlast ttl).mpr (outlived_expired hf hage)
    have hfresh : WithinTtl freq ttl c₀ c₁ →
        expiredAt (getTimestampNs c₀ freq) ttl (getTimestampNs c₁ freq) = false := by
      intro hage
      rw [Bool.eq_false_iff, ne_eq, h.expired_iff hc hlast ttl, Nat.not_lt]
      exact withinTtl_fresh hf hage
    -- both caches compare the same sum with the same clock
    constructor
    · intro capacity cache i hkept hvalid hstored httl
      constructor
      · intro hage
        refine hkept.drops hvalid ?_
        rw [dnsEntryExpired]
        rw [hstored, httl]
        exact hexpired hage
      · intro hage
        refine hkept.keeps hvalid ?_
        rw [dnsEntryExpired]
        rw [hstored, httl]
        exact hfresh hage
    · intro capacity cache i hplaced hvalid hstored httl
      constructor
      · intro hage
        refine hplaced.drops hvalid ?_
        rw [entryExpired]
        rw [hstored, httl]
        exact hexpired hage
      · intro hage
        refine hplaced.keeps hvalid ?_
        rw [entryExpired]
        rw [hstored, httl]
        exact hfresh hage

/-- Where the product first wraps, the timestamps fall. -/
theorem getTimestampNs_falls (hf : 0 < freq.toNat) (hf' : freq.toNat < 2 ^ 63) :
    getTimestampNs 18446744074 freq < getTimestampNs 18446744073 freq := by
  rw [UInt64.lt_iff_toNat_lt]
  show 290448384 / freq.toNat < 18446744073000000000 / freq.toNat
  have hdiv : (290448384 + freq.toNat) / freq.toNat ≤ 18446744073000000000 / freq.toNat :=
    Nat.div_le_div_right (by omega)
  rw [Nat.add_div_right _ hf] at hdiv
  omega

/-- Where the sum wraps, an entry with the longest ttl has expired when it is stored. -/
theorem expiredAt_wraps {now : UInt64} (hsum : 2 ^ 64 ≤ now.toNat + (2 ^ 32 - 1) * 10 ^ 9) :
    expiredAt now 0xffffffff now = true := expiredAt_self_iff.mpr hsum

/-- **Out of range something does not.** -/
theorem TimelyExpiry.inRange (h : TimelyExpiry freq last) (hf : 0 < freq.toNat)
    (hf' : freq.toNat < 2 ^ 63) : InRange freq last := by
  have hproduct : last.toNat * 10 ^ 9 < 2 ^ 64 := by
    by_contra hwraps
    have hlast : (18446744074 : UInt64) ≤ last := by
      rw [UInt64.le_iff_toNat_le]
      show 18446744074 ≤ last.toNat
      omega
    have hle := h.1 18446744073 18446744074 (by decide) hlast
    exact absurd (getTimestampNs_falls hf hf') (UInt64.not_lt.mpr hle)
  refine ⟨hproduct, ?_⟩
  by_contra hwraps
  rw [Nat.not_lt, ← getTimestampNs_toNat freq hproduct] at hwraps
  -- store a verdict with the longest ttl at the last reading: it must be fresh then
  obtain ⟨fresh, hinit⟩ : ∃ fresh, dnsCacheInit 64 = some fresh := ⟨_, rfl⟩
  obtain ⟨hempty, hcount⟩ := dnsCacheInit_zero hinit
  have hkept := DnsCache.WellKept.of_empty hempty hcount
  obtain ⟨i, hi, -⟩ := @DnsCache.WellKept.insert_slots 64 fresh hkept (getTimestampNs last freq)
    (cstr "a.com") .allow 0xffffffff (by decide) (by decide)
  have hwell := hkept.insert (getTimestampNs last freq) (cstr "a.com") .allow 0xffffffff
  generalize (dnsCacheInsert fresh (getTimestampNs last freq) (cstr "a.com") .allow 0xffffffff).2 =
    cache at hi hwell
  have hkeeps := ((h.2 last last (UInt64.le_refl _) (UInt64.le_refl _) 0xffffffff).1 64 cache i hwell
    (by rw [hi]; rfl) (by rw [hi]; rfl) (by rw [hi]; rfl)).2
      (by unfold WithinTtl; rw [Nat.sub_self]; exact Nat.zero_le _)
  have hdrops : cache.Drops (getTimestampNs last freq) i := by
    refine hwell.drops (by rw [hi]; rfl) ?_
    rw [dnsEntryExpired]
    rw [hi]
    exact expiredAt_wraps hwraps
  have hmiss := hdrops.lookup
  rw [hkeeps.lookup] at hmiss
  cases hmiss

end

/-- **How long expiry is timely.** For every frequency: exactly for the readings whose
product with 10^9 fits 64 bits and whose timestamps leave room for the longest ttl. -/
theorem timely_expiry_iff (freq last : UInt64) (hf : 1 ≤ freq.toNat) (hf' : freq.toNat < 2 ^ 63) :
    TimelyExpiry freq last ↔
      last.toNat * 10 ^ 9 < 2 ^ 64 ∧
        last.toNat * 10 ^ 9 / freq.toNat + (2 ^ 32 - 1) * 10 ^ 9 < 2 ^ 64 := by
  constructor
  · intro h
    exact ⟨(h.inRange hf hf').product, (h.inRange hf hf').sum⟩
  · rintro ⟨hproduct, hsum⟩
    exact InRange.timely ⟨hproduct, hsum⟩ hf

/-- At 10 MHz, for the first half hour. -/
theorem timely_expiry_half_hour : TimelyExpiry 10000000 18000000000 :=
  (timely_expiry_iff 10000000 18000000000 (by decide) (by decide)).mpr (by decide)

/-- At 10 MHz, a verdict stored for 60 seconds after a little more than half an hour: 62
seconds later it is still served. -/
theorem expiry_missed : ¬ TimelyExpiry 10000000 19066744073 ∧
    ∃ cache, dnsCacheInit 64 = some cache ∧ Outlived 10000000 60 18446744073 19066744073 ∧
      (dnsCacheLookup (dnsCacheInsert cache (getTimestampNs 18446744073 10000000)
        (cstr "ads.com") .block 60).2 (getTimestampNs 19066744073 10000000) (cstr "ads.com")).1 =
          some (.block, 60) := by
  constructor
  · intro h
    exact absurd (h.1 18446744073 18446744074 (by decide) (by decide)) (by decide)
  · refine ⟨_, rfl, by unfold Outlived; decide, ?_⟩
    exact dnsCacheInsert_served _ .block (by decide) (by decide) (by decide)

end Nyet
