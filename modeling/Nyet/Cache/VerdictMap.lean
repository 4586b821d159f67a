import Nyet.Cache.VerdictCalls
import Nyet.Lib.Run

/-!
# The verdict cache as a map

Without its slots the cache is a map from domains to an action and a ttl: an insert
binds a domain, an invalidation unbinds it, a clear unbinds all (`latestStep`).
`dnsCache_bounded_lru_map` says, for every sequence of calls, that no two entries have
the same domain, that `count` is the number of valid ones, that a hit returns the
binding, and what an insert does to the entries of other domains.
-/

namespace Nyet

/-- The cache, and the last successful insert of each domain that no invalidation of
the domain and no clear has followed. -/
structure MappedVerdicts (capacity : Nat) where
  cache : DnsCache capacity
  latest : CStr → Option (DnsAction × UInt32)

section

variable {capacity : Nat}

/-- The bindings after a call. -/
def MappedVerdicts.latestStep (s : MappedVerdicts capacity) (c : VerdictCall) :
    CStr → Option (DnsAction × UInt32) :=
  match c.op with
  | .insert domain action ttl =>
    if (dnsCacheInsert s.cache c.now domain action ttl).1 then
      Function.update s.latest domain (some (action, ttl))
    else s.latest
  | .invalidate domain => Function.update s.latest domain none
  | .clear => fun _ => none
  | .lookup _ | .prune => s.latest

/-- A fresh cache. -/
def MappedVerdicts.init (cache : DnsCache capacity) : MappedVerdicts capacity :=
  ⟨cache, fun _ => none⟩

/-- One call. -/
def MappedVerdicts.step (s : MappedVerdicts capacity) (c : VerdictCall) : MappedVerdicts capacity :=
  ⟨s.cache.call c, s.latestStep c⟩

/-- No two valid entries have the same domain, and the count is their number. -/
def OneEntryPerDomain (s : MappedVerdicts capacity) : Prop :=
  (∀ i j, (s.cache.entries i).valid = true → (s.cache.entries j).valid = true →
    (s.cache.entries i).domain = (s.cache.entries j).domain → i = j) ∧
  s.cache.count = s.cache.validEntries

/-- A hit returns the binding of its domain. -/
def AnswersLatest (s : MappedVerdicts capacity) (c : VerdictCall) : Prop :=
  match c.op with
  | .lookup domain =>
    ∀ action ttl, (dnsCacheLookup s.cache c.now domain).1 = some (action, ttl) →
      s.latest domain = some (action, ttl)
  | _ => True

/-- The slot holds an unexpired entry of another domain. -/
def LiveOther (cache : DnsCache capacity) (now : UInt64) (domain : CStr) (i : Fin capacity) :
    Prop :=
  (cache.entries i).valid = true ∧ dnsEntryExpired (cache.entries i) now = false ∧
    (cache.entries i).domain ≠ domain

instance (cache : DnsCache capacity) (now : UInt64) (domain : CStr) (i : Fin capacity) :
    Decidable (LiveOther cache now domain i) :=
  inferInstanceAs (Decidable (_ ∧ _ ∧ _))

/-- An insert leaves every unexpired entry of another domain alone, unless every slot
holds one: then it replaces one with the minimal timestamp and changes nothing else. -/
def EvictsOldest (s : MappedVerdicts capacity) (c : VerdictCall) : Prop :=
  match c.op with
  | .insert domain action ttl =>
    if (dnsCacheInsert s.cache c.now domain action ttl).1 = true ∧
        ∀ i, LiveOther s.cache c.now domain i then
      ∃ i, (∀ j, (s.cache.entries i).timestampNs ≤ (s.cache.entries j).timestampNs) ∧
        (dnsCacheInsert s.cache c.now domain action ttl).2.entries =
          Function.update s.cache.entries i (verdictEntry c.now domain action ttl)
    else
      ∀ i, LiveOther s.cache c.now domain i →
        (dnsCacheInsert s.cache c.now domain action ttl).2.entries i = s.cache.entries i
  | _ => True

/-! ## The table agrees with the map -/

/-- Every entry is the binding of its domain. -/
structure MapsVerdicts (cache : DnsCache capacity)
    (latest : CStr → Option (DnsAction × UInt32)) : Prop where
  kept : cache.WellKept
  bound : ∀ i, (cache.entries i).valid = true →
    latest (cache.entries i).domain = some ((cache.entries i).action, (cache.entries i).ttl)

theorem MapsVerdicts.init {cache : DnsCache capacity} (h : ∀ i, cache.entries i = .zero)
    (hcount : cache.count = 0) : MapsVerdicts cache fun _ => none :=
  ⟨.of_empty h hcount, fun i hi => by rw [h i] at hi; cases hi⟩

variable {cache : DnsCache capacity} {latest : CStr → Option (DnsAction × UInt32)}

theorem MapsVerdicts.insert (h : MapsVerdicts cache latest) (now : UInt64) (domain : CStr)
    (action : DnsAction) (ttl : UInt32) :
    MapsVerdicts (dnsCacheInsert cache now domain action ttl).2
      (if (dnsCacheInsert cache now domain action ttl).1 then
        Function.update latest domain (some (action, ttl)) else latest) := by
  have hkept := h.kept.insert now domain action ttl
  by_cases hrefused : ttl = 0 ∨ dnsCacheMaxDomainLen < domain.length
  · rw [dnsCacheInsert_refused hrefused]
    exact h
  · rw [not_or, Nat.not_lt] at hrefused
    obtain ⟨htrue, -, -⟩ := dnsCacheInsert_placed cache now action hrefused.1 hrefused.2
    obtain ⟨i₀, hi₀, hothers⟩ := h.kept.insert_slots now action hrefused.1 hrefused.2
    rw [if_pos htrue]
    generalize (dnsCacheInsert cache now domain action ttl).2 = cache' at hi₀ hothers hkept ⊢
    refine ⟨hkept, fun i hi => ?_⟩
    by_cases hii : i = i₀
    · subst hii
      rw [hi₀]
      exact Function.update_self ..
    · obtain ⟨heq, hno⟩ := hothers i hii hi
      rw [heq] at hi ⊢
      rw [Function.update_of_ne fun hd => hno ⟨hi, hd⟩]
      exact h.bound i hi

/-- A lookup changes a timestamp at most. -/
theorem MapsVerdicts.lookup (h : MapsVerdicts cache latest) (now : UInt64) (domain : CStr) :
    MapsVerdicts (dnsCacheLookup cache now domain).2 latest := by
  refine ⟨h.kept.lookup now domain, fun i hi => ?_⟩
  rcases dnsCacheLookup_slots cache now domain with
    ⟨-, hentries, -, -⟩ | ⟨i₀, hfind, -, -, hentries, -⟩
  · rw [hentries] at hi ⊢
    exact h.bound i hi
  · rw [hentries] at hi ⊢
    by_cases hii : i = i₀
    · subst hii
      rw [Function.update_self]
      exact h.bound i (dnsCacheFind_some hfind).1
    · rw [Function.update_of_ne hii] at hi ⊢
      exact h.bound i hi

/-- **One call keeps the table in agreement with the map.** -/
theorem MapsVerdicts.step {s : MappedVerdicts capacity} (h : MapsVerdicts s.cache s.latest)
    (c : VerdictCall) : MapsVerdicts (s.step c).cache (s.step c).latest := by
  have hkept : (s.step c).cache.WellKept := h.kept.call c
  obtain ⟨now, op⟩ := c
  cases op with
  | insert domain action ttl => exact h.insert now domain action ttl
  | lookup domain => exact h.lookup now domain
  | invalidate domain =>
    refine ⟨hkept, fun i hi => ?_⟩
    have hgone := h.kept.invalidate_gone domain i
    have heq := verdict_kept_of_wiped (dnsCacheInvalidate_entries s.cache domain) hi
    show Function.update s.latest domain none ((dnsCacheInvalidate s.cache domain).2.entries i).domain
      = some (((dnsCacheInvalidate s.cache domain).2.entries i).action,
        ((dnsCacheInvalidate s.cache domain).2.entries i).ttl)
    rw [Function.update_of_ne fun hd => hgone ⟨hi, hd⟩, heq]
    exact h.bound i (heq ▸ hi)
  | clear => exact ⟨hkept, fun i hi => nomatch hi⟩
  | prune =>
    refine ⟨hkept, fun i hi => ?_⟩
    have heq := verdict_kept_of_wiped (dnsCachePruneExpired_entries s.cache now) hi
    show s.latest ((dnsCachePruneExpired s.cache now).2.entries i).domain = _
    rw [show (s.step ⟨now, .prune⟩).cache.entries i = _ from heq, heq]
    exact h.bound i (heq ▸ hi)

theorem MapsVerdicts.answersLatest {s : MappedVerdicts capacity}
    (h : MapsVerdicts s.cache s.latest) (c : VerdictCall) : AnswersLatest s c := by
  obtain ⟨now, op⟩ := c
  cases op with
  | lookup domain =>
    intro action ttl hhit
    rcases dnsCacheLookup_slots s.cache now domain with ⟨hnone, -⟩ | ⟨i, hfind, -, hsome, -⟩
    · rw [show (dnsCacheLookup s.cache now domain).1 = some (action, ttl) from hhit] at hnone
      cases hnone
    · obtain ⟨hvalid, hd⟩ := dnsCacheFind_some hfind
      rw [← show (dnsCacheLookup s.cache now domain).1 = some (action, ttl) from hhit, hsome, ← hd]
      exact h.bound i hvalid
  | _ => trivial

/-- What the scan calls an entry that counts, of another key, is an unexpired entry of
another domain. -/
theorem DnsCache.WellKept.liveOther_iff (h : cache.WellKept) (now : UInt64) (domain : CStr)
    (i : Fin capacity) :
    ((dnsSlots now (fnv1a domain) domain).Live (cache.entries i) ∧
      (dnsSlots now (fnv1a domain) domain).holds (cache.entries i) = false) ↔
    LiveOther cache now domain i := by
  constructor
  · rintro ⟨⟨hvalid, hexp⟩, hother⟩
    refine ⟨hvalid, hexp, ?_⟩
    rintro rfl
    have hself := DnsCacheEntry.isFor_iff.mpr ⟨h.hash i hvalid, rfl⟩
    exact Bool.false_ne_true (hother.symm.trans hself)
  · rintro ⟨hvalid, hexp, hd⟩
    refine ⟨⟨hvalid, hexp⟩, ?_⟩
    by_contra hholds
    rw [Bool.not_eq_false] at hholds
    exact hd (DnsCacheEntry.isFor_iff.mp hholds).2

theorem MapsVerdicts.evictsOldest {s : MappedVerdicts capacity}
    (h : MapsVerdicts s.cache s.latest) (c : VerdictCall) : EvictsOldest s c := by
  obtain ⟨now, op⟩ := c
  cases op with
  | insert domain action ttl =>
    rw [EvictsOldest]
    dsimp only
    by_cases hrefused : ttl = 0 ∨ dnsCacheMaxDomainLen < domain.length
    · rw [dnsCacheInsert_refused hrefused, if_neg fun hfull => Bool.false_ne_true hfull.1]
      exact fun _ _ => rfl
    · rw [not_or, Nat.not_lt] at hrefused
      obtain ⟨htrue, hentries, -⟩ :=
        dnsCacheInsert_placed s.cache now action hrefused.1 hrefused.2
      have hlatest : ∀ a : UInt64, a.toNat ≤ (0xffffffffffffffff : UInt64).toNat := fun a =>
        Nat.le_of_lt_succ a.toNat_lt
      rw [hentries, htrue]
      -- either some slot was not live for another domain, or all were
      rcases Lib.place_live (fun _ _ => UInt64.lt_iff_toNat_lt)
          (dnsSlots now (fnv1a domain) domain) DnsCacheEntry.zero hlatest (firstSlot s.cache)
          (List.finRange capacity) s.cache.entries s.cache.count
          (verdictEntry now domain action ttl)
          fun entry => { entry with action := action, ttl := ttl, timestampNs := now } with
        ⟨hothers, -, j, -, hj⟩ | ⟨hall, -, hevict, holdest⟩
      · rw [if_neg fun hfull => hj ((h.kept.liveOther_iff now domain j).mpr (hfull.2 j))]
        intro i hi
        obtain ⟨hlive, hother⟩ := (h.kept.liveOther_iff now domain i).mpr hi
        exact hothers i hlive hother
      · rw [if_pos ⟨rfl, fun i =>
          (h.kept.liveOther_iff now domain i).mp (hall i (List.mem_finRange i))⟩]
        exact ⟨_, fun j => UInt64.le_iff_toNat_le.mpr (holdest j (List.mem_finRange j)), hevict⟩
  | _ => trivial

/-- **The verdict cache is a bounded LRU map.** Along every sequence of calls on a new
cache no two valid entries have the same domain and `count` is their number, a hit
returns the action and ttl of the last successful insert of its domain, which no
invalidation of it and no clear has followed, and an insert replaces an unexpired entry
of another domain only when every slot holds one: then exactly one, the oldest. -/
theorem dnsCache_bounded_lru_map {cache : DnsCache capacity}
    (hinit : dnsCacheInit capacity = some cache) (calls : List VerdictCall) :
    Lib.EveryState MappedVerdicts.step OneEntryPerDomain (.init cache) calls ∧
      Lib.EveryStep MappedVerdicts.step AnswersLatest (.init cache) calls ∧
      Lib.EveryStep MappedVerdicts.step EvictsOldest (.init cache) calls := by
  obtain ⟨hempty, hcount⟩ := dnsCacheInit_zero hinit
  have hstart : MapsVerdicts (MappedVerdicts.init cache).cache (MappedVerdicts.init cache).latest :=
    MapsVerdicts.init hempty hcount
  have hstep : ∀ (s : MappedVerdicts capacity) (c : VerdictCall), MapsVerdicts s.cache s.latest →
      True → MapsVerdicts (s.step c).cache (s.step c).latest := fun _ c hs _ => hs.step c
  have hcalls : Lib.EveryStep MappedVerdicts.step (fun _ _ => True) (.init cache) calls :=
    Lib.everyStep_of_mem (fun _ _ _ => trivial) _
  refine ⟨.of_invariant hstep (fun _ hs => ⟨hs.kept.unique, hs.kept.counted⟩) hstart hcalls, ?_, ?_⟩
  · exact .of_invariant hstep (fun _ c hs _ => hs.answersLatest c) hstart hcalls
  · exact .of_invariant hstep (fun _ c hs _ => hs.evictsOldest c) hstart hcalls

end

/-- Two inserts of one domain with a lookup after them. -/
theorem dnsCache_bounded_lru_map_rebound : ∃ cache, dnsCacheInit 64 = some cache ∧
    Lib.EveryState MappedVerdicts.step OneEntryPerDomain (.init cache)
      [⟨0, .insert (cstr "a.com") .block 10⟩, ⟨1, .insert (cstr "a.com") .allow 60⟩,
        ⟨2, .lookup (cstr "a.com")⟩] ∧
    Lib.EveryStep MappedVerdicts.step AnswersLatest (.init cache)
      [⟨0, .insert (cstr "a.com") .block 10⟩, ⟨1, .insert (cstr "a.com") .allow 60⟩,
        ⟨2, .lookup (cstr "a.com")⟩] ∧
    Lib.EveryStep MappedVerdicts.step EvictsOldest (.init cache)
      [⟨0, .insert (cstr "a.com") .block 10⟩, ⟨1, .insert (cstr "a.com") .allow 60⟩,
        ⟨2, .lookup (cstr "a.com")⟩] :=
  ⟨_, rfl, dnsCache_bounded_lru_map rfl _⟩

end Nyet
