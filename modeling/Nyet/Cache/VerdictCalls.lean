import Nyet.Cache.DnsCache

/-!
# Calls on the verdict cache

A call is an operation and the time it reads. Every call keeps the table well kept
(`DnsCache.WellKept`): an entry carries the hash of its domain, no domain has two, and
`count` is the number of valid entries. On a well-kept table an insert leaves its domain
in one slot (`DnsCache.WellKept.insert_slots`), a lookup moves the timestamp of its
domain's entry at most, and an invalidation takes the entry out.
-/

namespace Nyet

/-- A call on the verdict cache. -/
inductive VerdictOp where
  | insert (domain : CStr) (action : DnsAction) (ttl : UInt32)
  | lookup (domain : CStr)
  | invalidate (domain : CStr)
  | clear
  | prune

/-- A call and the time it reads. -/
structure VerdictCall where
  now : UInt64
  op : VerdictOp

section

variable {capacity : Nat}

/-- The cache after a call. -/
def DnsCache.call (cache : DnsCache capacity) (c : VerdictCall) : DnsCache capacity :=
  match c.op with
  | .insert domain action ttl => (dnsCacheInsert cache c.now domain action ttl).2
  | .lookup domain => (dnsCacheLookup cache c.now domain).2
  | .invalidate domain => (dnsCacheInvalidate cache domain).2
  | .clear => dnsCacheClear cache
  | .prune => (dnsCachePruneExpired cache c.now).2

/-- The slot holds an entry of the domain. -/
def DnsCacheEntry.Holds (e : DnsCacheEntry) (domain : CStr) : Prop :=
  e.valid = true ∧ e.domain = domain

/-- The number of valid entries. -/
def DnsCache.validEntries (cache : DnsCache capacity) : Nat :=
  (List.finRange capacity).countP fun i => (cache.entries i).valid

theorem DnsCache.validEntries_eq (cache : DnsCache capacity) (now : UInt64) (hash : UInt32)
    (domain : CStr) :
    (dnsSlots now hash domain).occupied cache.entries = cache.validEntries :=
  (dnsSlots now hash domain).occupied_eq_countP (List.nodup_finRange capacity) List.mem_finRange
    cache.entries

/-! ## Where entries stand -/

/-- Every entry is found under the hash of its domain, no domain has two, and the
count is right. -/
structure DnsCache.WellKept (cache : DnsCache capacity) : Prop where
  hash : ∀ i, (cache.entries i).valid = true →
    (cache.entries i).hash = fnv1a (cache.entries i).domain
  short : ∀ i, (cache.entries i).valid = true →
    (cache.entries i).domain.length ≤ dnsCacheMaxDomainLen
  unique : ∀ i j, (cache.entries i).valid = true → (cache.entries j).valid = true →
    (cache.entries i).domain = (cache.entries j).domain → i = j
  counted : cache.count = cache.validEntries

/-- A cache without entries and with a count of zero. -/
theorem DnsCache.WellKept.of_empty {cache : DnsCache capacity}
    (h : ∀ i, cache.entries i = .zero) (hcount : cache.count = 0) : cache.WellKept := by
  have hno : ∀ i, ¬ (cache.entries i).valid = true := fun i hi => by rw [h i] at hi; cases hi
  refine ⟨fun i hi => absurd hi (hno i), fun i hi => absurd hi (hno i),
    fun i _ hi => absurd hi (hno i), ?_⟩
  have hzero : cache.validEntries = 0 := List.countP_eq_zero.mpr fun i _ => hno i
  rw [hcount, hzero]
  rfl

theorem dnsCacheInit_zero {cache : DnsCache capacity} (h : dnsCacheInit capacity = some cache) :
    (∀ i, cache.entries i = .zero) ∧ cache.count = 0 := by
  rw [dnsCacheInit] at h
  split at h
  · cases h
    exact ⟨fun _ => rfl, rfl⟩
  · cases h

/-- Every entry of `cache'` was there before, for the same domain. -/
def KeepsDomains (cache cache' : DnsCache capacity) : Prop :=
  ∀ i, (cache'.entries i).valid = true →
    (cache.entries i).valid = true ∧ (cache'.entries i).hash = (cache.entries i).hash ∧
      (cache'.entries i).domain = (cache.entries i).domain

theorem DnsCache.WellKept.of_keepsDomains {cache cache' : DnsCache capacity} (h : cache.WellKept)
    (hk : KeepsDomains cache cache') (hcount : cache'.count = cache'.validEntries) :
    cache'.WellKept := by
  refine ⟨fun i hi => ?_, fun i hi => ?_, fun i j hi hj hd => ?_, hcount⟩
  · obtain ⟨hv, hhash, hdom⟩ := hk i hi
    rw [hhash, hdom]
    exact h.hash i hv
  · obtain ⟨hv, -, hdom⟩ := hk i hi
    rw [hdom]
    exact h.short i hv
  · obtain ⟨hvi, -, hdi⟩ := hk i hi
    obtain ⟨hvj, -, hdj⟩ := hk j hj
    exact h.unique i j hvi hvj (hdi ▸ hdj ▸ hd)

/-- Slots that are only kept or wiped hold what they held. -/
theorem verdict_kept_of_wiped {cache cache' : DnsCache capacity}
    (hw : ∀ i, cache'.entries i = cache.entries i ∨ cache'.entries i = .zero) {i : Fin capacity}
    (hi : (cache'.entries i).valid = true) : cache'.entries i = cache.entries i := by
  rcases hw i with heq | hzero
  · exact heq
  · rw [hzero] at hi
    cases hi

theorem DnsCache.WellKept.of_wiped {cache cache' : DnsCache capacity} (h : cache.WellKept)
    (hw : ∀ i, cache'.entries i = cache.entries i ∨ cache'.entries i = .zero)
    (hcount : cache'.count = cache'.validEntries) : cache'.WellKept := by
  refine h.of_keepsDomains (fun i hi => ?_) hcount
  have heq := verdict_kept_of_wiped hw hi
  rw [heq] at hi ⊢
  exact ⟨hi, rfl, rfl⟩

/-- The entry of a domain is found where it stands. -/
theorem DnsCache.WellKept.find_eq {cache : DnsCache capacity} (h : cache.WellKept)
    {domain : CStr} {i : Fin capacity} (hi : (cache.entries i).Holds domain) :
    dnsCacheFind cache domain = some i := by
  obtain ⟨hvalid, rfl⟩ := hi
  cases hfind : dnsCacheFind cache (cache.entries i).domain with
  | none =>
    have hno := List.find?_eq_none.mp hfind i (List.mem_finRange i)
    simp only [hvalid, DnsCacheEntry.isFor, h.hash i hvalid, decide_true, Bool.and_self,
      not_true_eq_false] at hno
  | some j =>
    obtain ⟨hv, hd⟩ := dnsCacheFind_some hfind
    rw [h.unique j i hv hvalid hd]

theorem dnsCacheInvalidate_entries (cache : DnsCache capacity) (domain : CStr) (i : Fin capacity) :
    (dnsCacheInvalidate cache domain).2.entries i = cache.entries i ∨
      (dnsCacheInvalidate cache domain).2.entries i = .zero := by
  rw [dnsCacheInvalidate]
  split
  · exact Or.inl rfl
  · split
    · exact Or.inl rfl
    · next j _ =>
      by_cases hi : i = j
      · subst hi
        exact Or.inr (Function.update_self ..)
      · exact Or.inl (Function.update_of_ne hi ..)

theorem dnsCachePruneExpired_entries (cache : DnsCache capacity) (now : UInt64)
    (i : Fin capacity) :
    (dnsCachePruneExpired cache now).2.entries i = cache.entries i ∨
      (dnsCachePruneExpired cache now).2.entries i = .zero := by
  rw [dnsCachePruneExpired]
  dsimp only
  split
  · exact Or.inr rfl
  · exact Or.inl rfl

/-! ## Inserting -/

/-- **After an insert** one slot holds the entry, and no other slot has the domain or
anything it did not have. -/
theorem DnsCache.WellKept.insert_slots {cache : DnsCache capacity} (h : cache.WellKept)
    (now : UInt64) {domain : CStr} (action : DnsAction) {ttl : UInt32} (httl : ttl ≠ 0)
    (hlen : domain.length ≤ dnsCacheMaxDomainLen) :
    ∃ i, (dnsCacheInsert cache now domain action ttl).2.entries i =
        verdictEntry now domain action ttl ∧
      ∀ j, j ≠ i → ((dnsCacheInsert cache now domain action ttl).2.entries j).valid = true →
        (dnsCacheInsert cache now domain action ttl).2.entries j = cache.entries j ∧
          ¬ (cache.entries j).Holds domain := by
  obtain ⟨i, hi, hothers, hsole⟩ := dnsCacheInsert_scan cache now action httl hlen
  refine ⟨i, hi, fun j hj hvalid => ?_⟩
  have hold : (dnsCacheInsert cache now domain action ttl).2.entries j = cache.entries j := by
    rcases hothers j hj with heq | hzero
    · exact heq
    · rw [hzero] at hvalid
      cases hvalid
  refine ⟨hold, ?_⟩
  rintro ⟨hv, hd⟩
  rcases hsole with ⟨hvi, hfor⟩ | hnone
  · -- the domain stood in the slot already, so not in this one
    exact hj (h.unique j i hv hvi (hd.trans (DnsCacheEntry.isFor_iff.mp hfor).2.symm))
  · have hhash := h.hash j hv
    rw [hd] at hhash
    have hno := hnone j hj hvalid
    rw [hold, DnsCacheEntry.isFor_iff.mpr ⟨hhash, hd⟩] at hno
    cases hno

/-- The count after an insert. -/
theorem DnsCache.WellKept.insert_counted {cache : DnsCache capacity} (h : cache.WellKept)
    (now : UInt64) (domain : CStr) (action : DnsAction) (ttl : UInt32) :
    (dnsCacheInsert cache now domain action ttl).2.count =
      (dnsCacheInsert cache now domain action ttl).2.validEntries := by
  by_cases hrefused : ttl = 0 ∨ dnsCacheMaxDomainLen < domain.length
  · rw [dnsCacheInsert_refused hrefused]
    exact h.counted
  · rw [not_or, Nat.not_lt] at hrefused
    obtain ⟨httl, hlen⟩ := hrefused
    obtain ⟨-, hentries, hcount⟩ := dnsCacheInsert_placed cache now action httl hlen
    have hplace : (dnsCachePlace cache now domain action ttl).count -
        (dnsSlots now (fnv1a domain) domain).occupied
          (dnsCachePlace cache now domain action ttl).entries =
        cache.count - (dnsSlots now (fnv1a domain) domain).occupied cache.entries :=
      Lib.place_count (dnsSlots now (fnv1a domain) domain) DnsCacheEntry.zero rfl
        0xffffffffffffffff (List.mem_finRange (firstSlot cache)) cache.entries cache.count
        rfl fun _ => rfl
    rw [← hentries, ← hcount, DnsCache.validEntries_eq, DnsCache.validEntries_eq, h.counted]
      at hplace
    omega

theorem DnsCache.WellKept.insert {cache : DnsCache capacity} (h : cache.WellKept) (now : UInt64)
    (domain : CStr) (action : DnsAction) (ttl : UInt32) :
    (dnsCacheInsert cache now domain action ttl).2.WellKept := by
  have hcounted := h.insert_counted now domain action ttl
  by_cases hrefused : ttl = 0 ∨ dnsCacheMaxDomainLen < domain.length
  · rw [dnsCacheInsert_refused hrefused]
    exact h
  · rw [not_or, Nat.not_lt] at hrefused
    obtain ⟨i₀, hi₀, hothers⟩ := h.insert_slots now action hrefused.1 hrefused.2
    generalize (dnsCacheInsert cache now domain action ttl).2 = cache' at hi₀ hothers hcounted ⊢
    refine ⟨fun i hi => ?_, fun i hi => ?_, fun i j hi hj hd => ?_, hcounted⟩
    · by_cases hii : i = i₀
      · subst hii
        rw [hi₀]
        rfl
      · obtain ⟨heq, -⟩ := hothers i hii hi
        rw [heq] at hi ⊢
        exact h.hash i hi
    · by_cases hii : i = i₀
      · subst hii
        rw [hi₀]
        exact hrefused.2
      · obtain ⟨heq, -⟩ := hothers i hii hi
        rw [heq] at hi ⊢
        exact h.short i hi
    · -- the new entry is the only one of its domain
      have hsole : ∀ m, m ≠ i₀ → (cache'.entries m).valid = true →
          (cache'.entries m).domain ≠ domain := by
        intro m hm hv hdm
        obtain ⟨heq, hno⟩ := hothers m hm hv
        rw [heq] at hv hdm
        exact hno ⟨hv, hdm⟩
      by_cases hii : i = i₀
      · by_contra hne
        have hji : j ≠ i₀ := fun hji => hne (hii.trans hji.symm)
        subst hii
        rw [hi₀] at hd
        exact hsole j hji hj hd.symm
      · by_cases hji : j = i₀
        · subst hji
          rw [hi₀] at hd
          exact absurd hd (hsole i hii hi)
        · obtain ⟨heqi, -⟩ := hothers i hii hi
          obtain ⟨heqj, -⟩ := hothers j hji hj
          rw [heqi] at hi hd
          rw [heqj] at hj hd
          exact h.unique i j hi hj hd

/-! ## Looking up -/

theorem DnsCache.WellKept.lookup {cache : DnsCache capacity} (h : cache.WellKept) (now : UInt64)
    (domain : CStr) : (dnsCacheLookup cache now domain).2.WellKept := by
  rcases dnsCacheLookup_slots cache now domain with
    ⟨-, hentries, hcount, -⟩ | ⟨i₀, hfind, -, -, hentries, hcount⟩
  · refine h.of_keepsDomains (fun i hi => ?_) ?_
    · rw [hentries] at hi ⊢
      exact ⟨hi, rfl, rfl⟩
    · rw [DnsCache.validEntries]
      rw [hcount, hentries]
      exact h.counted
  · -- a hit writes the time stamp of one record and leaves its key and validity
    obtain ⟨hvalid, -⟩ := dnsCacheFind_some hfind
    have hsame : ∀ i, ((dnsCacheLookup cache now domain).2.entries i).valid =
        (cache.entries i).valid := by
      intro i
      rw [hentries]
      by_cases hii : i = i₀
      · subst hii
        rw [Function.update_self]
      · rw [Function.update_of_ne hii]
    refine h.of_keepsDomains (fun i hi => ?_) ?_
    · rw [hsame] at hi
      refine ⟨hi, ?_⟩
      rw [hentries]
      by_cases hii : i = i₀
      · subst hii
        rw [Function.update_self]
        exact ⟨rfl, rfl⟩
      · rw [Function.update_of_ne hii]
        exact ⟨rfl, rfl⟩
    · rw [DnsCache.validEntries]
      rw [hcount, funext hsame]
      exact h.counted

/-! ## Invalidating and pruning -/

theorem DnsCache.WellKept.invalidate_counted {cache : DnsCache capacity} (h : cache.WellKept)
    (domain : CStr) :
    (dnsCacheInvalidate cache domain).2.count =
      (dnsCacheInvalidate cache domain).2.validEntries := by
  rw [dnsCacheInvalidate]
  split
  · exact h.counted
  · split
    · exact h.counted
    · next i hfind =>
      obtain ⟨hvalid, -⟩ := dnsCacheFind_some hfind
      show cache.count - 1 = _
      rw [← DnsCache.validEntries_eq _ 0 0 [], Lib.SlotTests.occupied_update,
        DnsCache.validEntries_eq, h.counted]
      show _ = _ - (if (cache.entries i).valid = true then (1 : Int) else 0) + 0
      rw [if_pos hvalid]
      omega

theorem DnsCache.WellKept.prune_counted {cache : DnsCache capacity} (h : cache.WellKept)
    (now : UInt64) :
    (dnsCachePruneExpired cache now).2.count = (dnsCachePruneExpired cache now).2.validEntries := by
  rw [← DnsCache.validEntries_eq _ 0 0 []]
  rw [dnsCachePruneExpired]
  dsimp only
  rw [Lib.SlotTests.occupied_wipe rfl (List.nodup_finRange capacity) List.mem_finRange,
    DnsCache.validEntries_eq, h.counted]
  intro i hi
  rw [Bool.and_eq_true] at hi
  exact hi.1

/-- **After an invalidation** the domain is not stored. -/
theorem DnsCache.WellKept.invalidate_gone {cache : DnsCache capacity} (h : cache.WellKept)
    (domain : CStr) (i : Fin capacity) :
    ¬ ((dnsCacheInvalidate cache domain).2.entries i).Holds domain := by
  intro hholds
  have hkept := verdict_kept_of_wiped (dnsCacheInvalidate_entries cache domain) hholds.1
  rw [hkept] at hholds
  have hshort := h.short i hholds.1
  rw [hholds.2] at hshort
  rw [dnsCacheInvalidate] at hkept
  rw [if_neg (Nat.not_lt.mpr hshort), h.find_eq hholds] at hkept
  dsimp only at hkept
  rw [Function.update_self] at hkept
  rw [← hkept] at hholds
  exact Bool.false_ne_true hholds.1

/-! ## Any call -/

theorem DnsCache.WellKept.call {cache : DnsCache capacity} (h : cache.WellKept)
    (c : VerdictCall) : (cache.call c).WellKept := by
  obtain ⟨now, op⟩ := c
  cases op with
  | insert domain action ttl => exact h.insert now domain action ttl
  | lookup domain => exact h.lookup now domain
  | invalidate domain =>
    exact h.of_wiped (dnsCacheInvalidate_entries cache domain) (h.invalidate_counted domain)
  | clear => exact .of_empty (fun _ => rfl) rfl
  | prune => exact h.of_wiped (dnsCachePruneExpired_entries cache now) (h.prune_counted now)

end

end Nyet
