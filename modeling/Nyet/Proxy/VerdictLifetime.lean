import Nyet.Lib.Run
import Nyet.Proxy.Decision

/-!
# How long a cached verdict is trusted

`check_domain` asks the tree only when `query_cache` has no answer, and a hit moves the
timestamp that the entry's age is counted from. So a domain that keeps being asked for
is answered from one tree lookup for as long as that goes on.
`verdict_rechecked_iff` says exactly when every answer is given within the lifetime of
a verdict the tree gave.
-/

namespace Nyet

/-- A call of `check_domain`, at a nanosecond reading and a time in seconds. -/
structure CheckCall where
  nowNs : UInt64
  now : UInt32
  domain : CStr

/-- A `radix_lookup` whose verdict was put into the cache. -/
structure TreeCheck where
  checkedAt : UInt64
  verdict : LookupResult

/-- The cache and the tree, with what the calls so far say about each domain: the tree
lookups behind its cached verdicts, the latest first, and when `dns_cache_insert` or a
hit last set its timestamp. -/
structure CheckedCache (capacity : Nat) where
  cache : DnsCache capacity
  tree : RadixTree
  checks : CStr → List TreeCheck
  touchedAt : CStr → UInt64
  clock : UInt64

section

variable {capacity : Nat}

/-- `check_domain` answers from the cache. -/
def CheckedCache.answers (s : CheckedCache capacity) (c : CheckCall) : Bool :=
  (checkCached (some s.cache) c.nowNs c.domain).1.isSome

/-- `check_domain` asks the tree and caches its verdict. -/
def CheckedCache.rechecks (s : CheckedCache capacity) (c : CheckCall) : Bool :=
  !s.answers c && insertsVerdict (dnsCacheLookup s.cache c.nowNs c.domain).2 c.nowNs c.domain
    (radixLookup s.tree c.now c.domain).1

/-- A proxy with a fresh cache. -/
def CheckedCache.init (cache : DnsCache capacity) (tree : RadixTree) : CheckedCache capacity :=
  ⟨cache, tree, fun _ => [], fun _ => 0, 0⟩

/-- One call. -/
def CheckedCache.step (s : CheckedCache capacity) (c : CheckCall) : CheckedCache capacity where
  cache := (checkDomain (some s.cache) s.tree c.nowNs c.now c.domain).2.1.getD s.cache
  tree := (checkDomain (some s.cache) s.tree c.nowNs c.now c.domain).2.2
  checks :=
    if s.rechecks c then
      Function.update s.checks c.domain
        (⟨c.nowNs, (radixLookup s.tree c.now c.domain).1⟩ :: s.checks c.domain)
    else s.checks
  touchedAt :=
    if s.answers c || s.rechecks c then Function.update s.touchedAt c.domain c.nowNs
    else s.touchedAt
  clock := c.nowNs

/-- The verdict of the check has outlived its ttl. -/
def TreeCheck.Lapsed (k : TreeCheck) (nowNs : UInt64) : Prop :=
  k.checkedAt.toNat + (verdictTtl k.verdict).toNat * 10 ^ 9 < nowNs.toNat

instance (k : TreeCheck) (nowNs : UInt64) : Decidable (k.Lapsed nowNs) :=
  inferInstanceAs (Decidable (_ < _))

/-- **One call**: an answer from the cache comes within the lifetime of a verdict the
tree gave for the domain. -/
def RecheckedInTime (s : CheckedCache capacity) (c : CheckCall) : Prop :=
  s.answers c = true → ∃ k ∈ s.checks c.domain, ¬ k.Lapsed c.nowNs

instance (s : CheckedCache capacity) (c : CheckCall) : Decidable (RecheckedInTime s c) :=
  inferInstanceAs (Decidable (_ → _))

/-- The condition: a call made after the verdicts of all checks of the domain have
lapsed finds the entry gone, or comes more than a ttl after the entry was last
stored or hit. -/
def NotKeptHot (s : CheckedCache capacity) (c : CheckCall) : Prop :=
  ∀ k earlier, s.checks c.domain = k :: earlier → (∀ k ∈ s.checks c.domain, k.Lapsed c.nowNs) →
    expiredAt (s.touchedAt c.domain) (verdictTtl k.verdict) c.nowNs = true ∨
      ∀ i, ¬ (s.cache.entries i).Holds c.domain

/-! ## What `check_domain` does to the cache -/

/-- **One call, by cases**: the cache answers, and the entry of the domain, which has not
expired, is touched; or it does not, and a new verdict of the tree is stored; or
neither, and all entries are as they were. -/
theorem CheckedCache.step_cases (s : CheckedCache capacity) (c : CheckCall) :
    (s.answers c = true ∧ s.rechecks c = false ∧
      ∃ i, (s.cache.entries i).Holds c.domain ∧
        dnsEntryExpired (s.cache.entries i) c.nowNs = false ∧
        (s.step c).cache = (dnsCacheLookup s.cache c.nowNs c.domain).2 ∧
        (s.step c).cache.entries = Function.update s.cache.entries i { s.cache.entries i with
          timestampNs := if (s.cache.entries i).timestampNs < c.nowNs then c.nowNs
            else (s.cache.entries i).timestampNs }) ∨
    (s.answers c = false ∧ (dnsCacheLookup s.cache c.nowNs c.domain).2.entries = s.cache.entries ∧
      ((s.rechecks c = true ∧ c.domain.length ≤ dnsCacheMaxDomainLen ∧
          (s.step c).cache = (dnsCacheInsert (dnsCacheLookup s.cache c.nowNs c.domain).2 c.nowNs
            c.domain (radixLookup s.tree c.now c.domain).1.status.cacheAction
            (verdictTtl (radixLookup s.tree c.now c.domain).1)).2) ∨
        (s.rechecks c = false ∧
          (s.step c).cache = (dnsCacheLookup s.cache c.nowNs c.domain).2))) := by
  rcases dnsCacheLookup_slots s.cache c.nowNs c.domain with
    ⟨hnone, hentries, -, -⟩ | ⟨i, hfind, hexp, hsome, hentries, -⟩
  · have hanswers : s.answers c = false := by
      rw [CheckedCache.answers]
      rw [checkCached_miss hnone]
      rfl
    have hcache : (s.step c).cache =
        if insertsVerdict (dnsCacheLookup s.cache c.nowNs c.domain).2 c.nowNs c.domain
          (radixLookup s.tree c.now c.domain).1 = true then
          (dnsCacheInsert (dnsCacheLookup s.cache c.nowNs c.domain).2 c.nowNs c.domain
            (radixLookup s.tree c.now c.domain).1.status.cacheAction
            (verdictTtl (radixLookup s.tree c.now c.domain).1)).2
        else (dnsCacheLookup s.cache c.nowNs c.domain).2 := by
      show (checkDomain (some s.cache) s.tree c.nowNs c.now c.domain).2.1.getD s.cache = _
      rw [checkDomain_miss hnone]
      dsimp only
      rw [cacheVerdict_eq]
      rfl
    have hrechecks : s.rechecks c = insertsVerdict (dnsCacheLookup s.cache c.nowNs c.domain).2
        c.nowNs c.domain (radixLookup s.tree c.now c.domain).1 := by
      rw [CheckedCache.rechecks]
      rw [hanswers]
      rfl
    refine Or.inr ⟨hanswers, hentries, ?_⟩
    rw [hrechecks, hcache]
    -- `insertsVerdict` is what `check_domain` looks at before it stores
    by_cases hins : insertsVerdict (dnsCacheLookup s.cache c.nowNs c.domain).2 c.nowNs c.domain
        (radixLookup s.tree c.now c.domain).1 = true
    · rw [if_pos hins]
      refine Or.inl ⟨hins, ?_, rfl⟩
      by_contra hlong
      rw [insertsVerdict] at hins
      rw [dnsCacheInsert_refused (Or.inr (Nat.not_le.mp hlong)), Bool.and_false] at hins
      cases hins
    · rw [if_neg hins]
      exact Or.inr ⟨Bool.eq_false_iff.mpr hins, rfl⟩
  · have hanswers : s.answers c = true := by
      rw [CheckedCache.answers]
      rw [checkCached_hit hsome]
      rfl
    have hcache : (s.step c).cache = (dnsCacheLookup s.cache c.nowNs c.domain).2 := by
      show (checkDomain (some s.cache) s.tree c.nowNs c.now c.domain).2.1.getD s.cache = _
      rw [checkDomain_hit hsome]
      rfl
    refine Or.inl ⟨hanswers, ?_, i, dnsCacheFind_some hfind, hexp, hcache, ?_⟩
    · rw [CheckedCache.rechecks]
      rw [hanswers]
      rfl
    · rw [hcache, hentries]

/-! ## The records are right -/

/-- A stored entry is that of the domain's last check, and its timestamp is when the
domain was last stored or hit. -/
structure TracksChecks (s : CheckedCache capacity) : Prop where
  kept : s.cache.WellKept
  tracked : ∀ i, (s.cache.entries i).valid = true → ∃ k earlier,
    s.checks (s.cache.entries i).domain = k :: earlier ∧
      verdictTtl k.verdict = (s.cache.entries i).ttl ∧
      s.touchedAt (s.cache.entries i).domain = (s.cache.entries i).timestampNs
  past : ∀ i, (s.cache.entries i).valid = true → (s.cache.entries i).timestampNs ≤ s.clock

theorem TracksChecks.init {cache : DnsCache capacity} (h : dnsCacheInit capacity = some cache)
    (tree : RadixTree) : TracksChecks (.init cache tree) := by
  obtain ⟨hempty, hcount⟩ := dnsCacheInit_zero h
  have hno : ∀ i, ¬ (cache.entries i).valid = true := fun i hi => by
    rw [hempty i] at hi
    cases hi
  exact ⟨.of_empty hempty hcount, fun i hi => absurd hi (hno i), fun i hi => absurd hi (hno i)⟩

/-- A hit touches the entry of the domain. -/
theorem TracksChecks.hit {s : CheckedCache capacity} (h : TracksChecks s) {c : CheckCall}
    (hnow : s.clock ≤ c.nowNs) (hans : s.answers c = true) (hrec : s.rechecks c = false)
    {i₀ : Fin capacity} (hholds : (s.cache.entries i₀).Holds c.domain)
    (hcache : (s.step c).cache = (dnsCacheLookup s.cache c.nowNs c.domain).2)
    (hentries : (s.step c).cache.entries = Function.update s.cache.entries i₀
      { s.cache.entries i₀ with
        timestampNs := if (s.cache.entries i₀).timestampNs < c.nowNs then c.nowNs
          else (s.cache.entries i₀).timestampNs }) : TracksChecks (s.step c) := by
  have hchecks : (s.step c).checks = s.checks := by
    show (if s.rechecks c = true then _ else s.checks) = s.checks
    rw [hrec]
    rfl
  have htouched : (s.step c).touchedAt = Function.update s.touchedAt c.domain c.nowNs := by
    show (if (s.answers c || s.rechecks c) = true then _ else s.touchedAt) = _
    rw [hans]
    rfl
  -- time has not gone back, so the timestamp moves to the present
  have htouch : (if (s.cache.entries i₀).timestampNs < c.nowNs then c.nowNs
      else (s.cache.entries i₀).timestampNs) = c.nowNs := by
    have hle := UInt64.le_trans (h.past i₀ hholds.1) hnow
    split
    · rfl
    · next hnlt => exact UInt64.le_antisymm hle (UInt64.not_lt.mp hnlt)
  rw [htouch] at hentries
  refine ⟨hcache ▸ h.kept.lookup c.nowNs c.domain, fun i hi => ?_, fun i hi => ?_⟩
  · rw [hentries] at hi ⊢
    rw [hchecks, htouched]
    by_cases hii : i = i₀
    · subst hii
      obtain ⟨k, earlier, hk, httl, -⟩ := h.tracked i hholds.1
      rw [Function.update_self]
      exact ⟨k, earlier, hk, httl, by rw [hholds.2, Function.update_self]⟩
    · rw [Function.update_of_ne hii] at hi ⊢
      obtain ⟨k, earlier, hk, httl, hts⟩ := h.tracked i hi
      refine ⟨k, earlier, hk, httl, ?_⟩
      rw [Function.update_of_ne fun hd =>
        hii (h.kept.unique i i₀ hi hholds.1 (hd.trans hholds.2.symm))]
      exact hts
  · rw [hentries] at hi ⊢
    show _ ≤ c.nowNs
    by_cases hii : i = i₀
    · subst hii
      rw [Function.update_self]
      exact UInt64.le_refl _
    · rw [Function.update_of_ne hii] at hi ⊢
      exact UInt64.le_trans (h.past i hi) hnow

/-- After a check that is cached the entry is new. -/
theorem TracksChecks.recheck {s : CheckedCache capacity} (h : TracksChecks s) {c : CheckCall}
    (hnow : s.clock ≤ c.nowNs) (hrec : s.rechecks c = true)
    (hsame : (dnsCacheLookup s.cache c.nowNs c.domain).2.entries = s.cache.entries)
    (hlen : c.domain.length ≤ dnsCacheMaxDomainLen)
    (hcache : (s.step c).cache = (dnsCacheInsert (dnsCacheLookup s.cache c.nowNs c.domain).2 c.nowNs
      c.domain (radixLookup s.tree c.now c.domain).1.status.cacheAction
      (verdictTtl (radixLookup s.tree c.now c.domain).1)).2) : TracksChecks (s.step c) := by
  have hchecks : (s.step c).checks = Function.update s.checks c.domain
      (⟨c.nowNs, (radixLookup s.tree c.now c.domain).1⟩ :: s.checks c.domain) := if_pos hrec
  have htouched : (s.step c).touchedAt = Function.update s.touchedAt c.domain c.nowNs := by
    show (if (s.answers c || s.rechecks c) = true then _ else s.touchedAt) = _
    rw [hrec, Bool.or_true]
    rfl
  have hkept := h.kept.lookup c.nowNs c.domain
  -- one slot holds the verdict, and no other has the domain
  obtain ⟨i₀, hi₀, hothers⟩ := hkept.insert_slots c.nowNs
    (radixLookup s.tree c.now c.domain).1.status.cacheAction
    (verdictTtl_ne_zero (radixLookup s.tree c.now c.domain).1) hlen
  rw [← hcache] at hi₀ hothers
  rw [hsame] at hothers
  refine ⟨hcache ▸ hkept.insert _ _ _ _, fun i hi => ?_, fun i hi => ?_⟩
  · rw [hchecks, htouched]
    by_cases hii : i = i₀
    · subst hii
      rw [hi₀]
      exact ⟨_, _, Function.update_self .., rfl, Function.update_self ..⟩
    · obtain ⟨heq, hno⟩ := hothers i hii hi
      rw [heq] at hi ⊢
      have hne : (s.cache.entries i).domain ≠ c.domain := fun hd => hno ⟨hi, hd⟩
      rw [Function.update_of_ne hne, Function.update_of_ne hne]
      exact h.tracked i hi
  · show _ ≤ c.nowNs
    by_cases hii : i = i₀
    · subst hii
      rw [hi₀]
      exact UInt64.le_refl _
    · obtain ⟨heq, -⟩ := hothers i hii hi
      rw [heq] at hi ⊢
      exact UInt64.le_trans (h.past i hi) hnow

/-- A miss after which nothing is stored. -/
theorem TracksChecks.quiet {s : CheckedCache capacity} (h : TracksChecks s) {c : CheckCall}
    (hnow : s.clock ≤ c.nowNs) (hans : s.answers c = false) (hrec : s.rechecks c = false)
    (hsame : (dnsCacheLookup s.cache c.nowNs c.domain).2.entries = s.cache.entries)
    (hcache : (s.step c).cache = (dnsCacheLookup s.cache c.nowNs c.domain).2) :
    TracksChecks (s.step c) := by
  have hchecks : (s.step c).checks = s.checks := by
    show (if s.rechecks c = true then _ else s.checks) = s.checks
    rw [hrec]
    rfl
  have htouched : (s.step c).touchedAt = s.touchedAt := by
    show (if (s.answers c || s.rechecks c) = true then _ else s.touchedAt) = _
    rw [hans, hrec]
    rfl
  have hentries : (s.step c).cache.entries = s.cache.entries := by rw [hcache, hsame]
  refine ⟨hcache ▸ h.kept.lookup c.nowNs c.domain, fun i hi => ?_, fun i hi => ?_⟩
  · rw [hentries] at hi ⊢
    rw [hchecks, htouched]
    exact h.tracked i hi
  · rw [hentries] at hi ⊢
    exact UInt64.le_trans (h.past i hi) hnow

/-- **One call keeps the records right.** -/
theorem TracksChecks.step {s : CheckedCache capacity} (h : TracksChecks s) (c : CheckCall)
    (hnow : s.clock ≤ c.nowNs) : TracksChecks (s.step c) := by
  rcases s.step_cases c with ⟨hans, hrec, i₀, hholds, -, hcache, hentries⟩ |
    ⟨hans, hsame, ⟨hrec, hlen, hcache⟩ | ⟨hrec, hcache⟩⟩
  · exact h.hit hnow hans hrec hholds hcache hentries
  · exact h.recheck hnow hrec hsame hlen hcache
  · exact h.quiet hnow hans hrec hsame hcache

/-- **One call** answers in time exactly when the entry has not been kept hot. -/
theorem TracksChecks.recheckedInTime_iff {s : CheckedCache capacity} (h : TracksChecks s)
    (c : CheckCall) : RecheckedInTime s c ↔ NotKeptHot s c := by
  constructor
  · intro htime k earlier hk hlapsed
    by_contra hno
    rw [not_or, not_forall] at hno
    obtain ⟨hfresh, i, hholds⟩ := hno
    rw [not_not] at hholds
    -- the entry is there and has not expired, so the cache answers
    have hanswers : s.answers c = true := by
      obtain ⟨k', earlier', hk', httl, hts⟩ := h.tracked i hholds.1
      rw [hholds.2] at hk' hts
      rw [hk] at hk'
      cases hk'
      rcases s.step_cases c with ⟨hans, -⟩ | ⟨hans, -⟩
      · exact hans
      · exfalso
        have hshort := h.kept.short i hholds.1
        rw [hholds.2] at hshort
        rcases dnsCacheLookup_slots s.cache c.nowNs c.domain with
          ⟨-, -, -, hexpired⟩ | ⟨j, -, -, hsome, -⟩
        · have hexp := hexpired hshort i (h.kept.find_eq hholds)
          rw [dnsEntryExpired] at hexp
          rw [← httl, ← hts] at hexp
          exact hfresh hexp
        · rw [CheckedCache.answers] at hans
          rw [checkCached_hit hsome] at hans
          cases hans
    obtain ⟨k', hmem, hnot⟩ := htime hanswers
    exact hnot (hlapsed k' hmem)
  · intro hcond hanswers
    rcases s.step_cases c with ⟨-, -, i, hholds, hexp, -⟩ | ⟨hans, -⟩
    · obtain ⟨k, earlier, hk, httl, hts⟩ := h.tracked i hholds.1
      rw [hholds.2] at hk hts
      by_contra hall
      have hlapsed : ∀ k ∈ s.checks c.domain, k.Lapsed c.nowNs := by
        intro k' hmem
        by_contra hnot
        exact hall ⟨k', hmem, hnot⟩
      rcases hcond k earlier hk hlapsed with hdead | hgone
      · rw [dnsEntryExpired] at hexp
        rw [← httl, ← hts, hdead] at hexp
        cases hexp
      · exact hgone i hholds
    · rw [hans] at hanswers
      cases hanswers

/-- **When a hot domain is re-checked.** For calls of `check_domain` at nondecreasing
times, with a new cache: every answer from the cache comes within the lifetime of a
verdict the tree gave for that domain, exactly when every call made after the verdicts
of all checks of its domain have lapsed finds the entry gone, or comes more than a ttl
after the entry was last stored or hit. -/
theorem verdict_rechecked_iff {cache : DnsCache capacity}
    (hinit : dnsCacheInit capacity = some cache) (tree : RadixTree) (calls : List CheckCall)
    (hsorted : calls.Pairwise fun a b => a.nowNs ≤ b.nowNs) :
    Lib.EveryStep CheckedCache.step RecheckedInTime (.init cache tree) calls ↔
      Lib.EveryStep CheckedCache.step NotKeptHot (.init cache tree) calls := by
  have hclock : Lib.EveryStep CheckedCache.step (fun s c => s.clock ≤ c.nowNs)
      (.init cache tree) calls :=
    Lib.everyStep_clock CheckedCache.clock CheckCall.nowNs (fun _ _ => rfl)
      (fun _ _ => UInt64.zero_le) hsorted
  exact Lib.everyStep_congr (fun _ c hs hc => TracksChecks.step hs c hc)
    (fun _ c hs _ => TracksChecks.recheckedInTime_iff hs c) (TracksChecks.init hinit tree) hclock

end

/-- Asked for again within the minute the verdict is trusted. -/
theorem verdict_rechecked_one_hit : ∃ cache, dnsCacheInit 64 = some cache ∧
    Lib.EveryStep CheckedCache.step RecheckedInTime (.init cache oneBlocked)
      [⟨0, 0, cstr "ads.com"⟩, ⟨40000000000, 40, cstr "ads.com"⟩] := by
  refine ⟨_, rfl, (verdict_rechecked_iff rfl oneBlocked _ (by decide)).mpr ⟨?_, ?_, trivial⟩⟩
  · intro k earlier hk
    cases hk
  · intro k earlier _ hlapsed
    exact absurd hlapsed (by decide +kernel)

/-- Hits after 40 and 80 seconds: the second one is answered from the lookup at the
start. -/
theorem verdict_kept_hot : ∃ cache, dnsCacheInit 64 = some cache ∧
    ¬ Lib.EveryStep CheckedCache.step RecheckedInTime (.init cache oneBlocked)
      [⟨0, 0, cstr "ads.com"⟩, ⟨40000000000, 40, cstr "ads.com"⟩,
        ⟨80000000000, 80, cstr "ads.com"⟩] :=
  ⟨_, rfl, by decide +kernel⟩

end Nyet
