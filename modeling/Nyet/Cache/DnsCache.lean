import Nyet.Cache.AnswerCache

/-!
# The verdict cache (`dns_cache.c`)

A table of slots scanned as a whole by every operation, holding BLOCK and ALLOW
verdicts. An insert goes the same way as in the answer cache (`Lib.place`), over
all slots. A lookup leaves an expired entry where it is.

`DnsCache.Says` is what a cache can answer; it is all the proofs about
`check_domain` need to know of one.
-/

namespace Nyet

/-- `MAX_DOMAIN_LEN` of `dns_cache.c`. -/
def dnsCacheMaxDomainLen : Nat := 253

/-- `dns_cache_action_t` -/
inductive DnsAction where
  | none
  | block
  | allow
  | redirect
  deriving DecidableEq, Repr

/-- `dns_cache_entry_t` -/
structure DnsCacheEntry where
  timestampNs : UInt64
  hash : UInt32
  ttl : UInt32
  action : DnsAction
  valid : Bool
  domain : CStr
  deriving DecidableEq, Repr

/-- A slot after `memset(entry, 0, sizeof(*entry))`. -/
def DnsCacheEntry.zero : DnsCacheEntry := ⟨0, 0, 0, .none, false, []⟩

/-- `dns_cache_t`, with what `dns_cache_init` has checked. -/
structure DnsCache (capacity : Nat) where
  entries : Fin capacity → DnsCacheEntry
  count : Int
  hits : Nat
  misses : Nat
  evictions : Nat
  inserts : Nat
  large : 64 ≤ capacity
  powerOf2 : isPowerOf2 capacity = true

/-- `dns_cache_init` with memory to spare. -/
def dnsCacheInit (capacity : Nat) : Option (DnsCache capacity) :=
  if h : 64 ≤ capacity ∧ isPowerOf2 capacity = true then
    some ⟨fun _ => .zero, 0, 0, 0, 0, 0, large_of_checked h, powerOf2_of_checked h⟩
  else none

/-- `fnv1a_hash`, and `fnv1a` of `nyet.c`: 32-bit FNV-1a. -/
def fnv1a (s : CStr) : UInt32 :=
  s.foldl (fun hash c => (hash ^^^ c.toUInt32) * 0x01000193) 0x811c9dc5

/-- The entry is past its TTL. -/
def dnsEntryExpired (entry : DnsCacheEntry) (now : UInt64) : Bool :=
  expiredAt entry.timestampNs entry.ttl now

/-- The two comparisons that identify an entry. -/
def DnsCacheEntry.isFor (entry : DnsCacheEntry) (hash : UInt32) (domain : CStr) : Bool :=
  entry.hash = hash && entry.domain = domain

section

variable {capacity : Nat}

/-- The first slot that holds the domain. -/
def dnsCacheFind (cache : DnsCache capacity) (domain : CStr) : Option (Fin capacity) :=
  (List.finRange capacity).find? fun i =>
    (cache.entries i).valid && (cache.entries i).isFor (fnv1a domain) domain

/-- `dns_cache_lookup`: action and ttl if it returns true, and the cache. -/
def dnsCacheLookup (cache : DnsCache capacity) (now : UInt64) (domain : CStr) :
    Option (DnsAction × UInt32) × DnsCache capacity :=
  if dnsCacheMaxDomainLen < domain.length then (none, cache)
  else
    match dnsCacheFind cache domain with
    | none => (none, { cache with misses := cache.misses + 1 })
    | some i =>
      let entry := cache.entries i
      if dnsEntryExpired entry now then (none, { cache with misses := cache.misses + 1 })
      else
        let ts := if entry.timestampNs < now then now else entry.timestampNs
        (some (entry.action, entry.ttl), { cache with
          entries := Function.update cache.entries i { entry with timestampNs := ts }
          hits := cache.hits + 1 })

/-- What the scan of `dns_cache_insert` asks about a slot. -/
def dnsSlots (now : UInt64) (hash : UInt32) (domain : CStr) :
    Lib.SlotTests DnsCacheEntry UInt64 where
  valid := (·.valid)
  expired := (dnsEntryExpired · now)
  holds := (·.isFor hash domain)
  stamp := (·.timestampNs)

/-- Slot 0, where `lru_idx` starts. -/
def firstSlot (cache : DnsCache capacity) : Fin capacity :=
  ⟨0, Nat.lt_of_lt_of_le (by decide) cache.large⟩

/-- The scan of `dns_cache_insert` and what it ends in. -/
def dnsCachePlace (cache : DnsCache capacity) (now : UInt64) (domain : CStr) (action : DnsAction)
    (ttl : UInt32) : Lib.Placed (Fin capacity) DnsCacheEntry :=
  Lib.place (dnsSlots now (fnv1a domain) domain) .zero 0xffffffffffffffff (firstSlot cache)
    (List.finRange capacity) cache.entries cache.count ⟨now, fnv1a domain, ttl, action, true, domain⟩
    fun entry => { entry with action := action, ttl := ttl, timestampNs := now }

/-- `dns_cache_insert` -/
def dnsCacheInsert (cache : DnsCache capacity) (now : UInt64) (domain : CStr) (action : DnsAction)
    (ttl : UInt32) : Bool × DnsCache capacity :=
  if ttl = 0 then (false, cache)
  else if dnsCacheMaxDomainLen < domain.length then (false, cache)
  else
    let placed := dnsCachePlace cache now domain action ttl
    (true, { cache with
      entries := placed.entries
      count := placed.count
      evictions := if placed.placement = .evicting then cache.evictions + 1 else cache.evictions
      inserts := if placed.placement = .refreshed then cache.inserts else cache.inserts + 1 })

/-- `dns_cache_invalidate` -/
def dnsCacheInvalidate (cache : DnsCache capacity) (domain : CStr) : Bool × DnsCache capacity :=
  if dnsCacheMaxDomainLen < domain.length then (false, cache)
  else
    match dnsCacheFind cache domain with
    | none => (false, cache)
    | some i => (true, { cache with
        entries := Function.update cache.entries i .zero
        count := cache.count - 1 })

/-- `dns_cache_clear` -/
def dnsCacheClear (cache : DnsCache capacity) : DnsCache capacity :=
  { cache with entries := fun _ => .zero, count := 0 }

/-- `dns_cache_prune_expired` -/
def dnsCachePruneExpired (cache : DnsCache capacity) (currentTimeNs : UInt64) :
    Nat × DnsCache capacity :=
  let dead := fun i => (cache.entries i).valid && dnsEntryExpired (cache.entries i) currentTimeNs
  let pruned := (List.finRange capacity).countP dead
  (pruned, { cache with
    entries := fun i => if dead i then .zero else cache.entries i
    count := cache.count - pruned })

/-! ## What a cache can answer -/

/-- Some valid entry gives the domain this action. -/
def DnsCache.Says (cache : DnsCache capacity) (domain : CStr) (action : DnsAction) : Prop :=
  ∃ i, (cache.entries i).valid = true ∧ (cache.entries i).domain = domain ∧
    (cache.entries i).action = action

theorem dnsCacheFind_some {cache : DnsCache capacity} {domain : CStr} {i : Fin capacity}
    (h : dnsCacheFind cache domain = some i) :
    (cache.entries i).valid = true ∧ (cache.entries i).domain = domain := by
  have hfound := List.find?_some h
  simp only [DnsCacheEntry.isFor, Bool.and_eq_true, decide_eq_true_eq] at hfound
  exact ⟨hfound.1, hfound.2.2⟩

/-- **After a lookup** that answers, the entry of the domain, which has not expired, has
been touched; after one that does not, all slots are as they were. -/
theorem dnsCacheLookup_slots (cache : DnsCache capacity) (now : UInt64) (domain : CStr) :
    ((dnsCacheLookup cache now domain).1 = none ∧
      (dnsCacheLookup cache now domain).2.entries = cache.entries ∧
      (dnsCacheLookup cache now domain).2.count = cache.count ∧
      (domain.length ≤ dnsCacheMaxDomainLen → ∀ i, dnsCacheFind cache domain = some i →
        dnsEntryExpired (cache.entries i) now = true)) ∨
    ∃ i, dnsCacheFind cache domain = some i ∧ dnsEntryExpired (cache.entries i) now = false ∧
      (dnsCacheLookup cache now domain).1 =
        some ((cache.entries i).action, (cache.entries i).ttl) ∧
      (dnsCacheLookup cache now domain).2.entries =
        Function.update cache.entries i { cache.entries i with
          timestampNs := if (cache.entries i).timestampNs < now then now
            else (cache.entries i).timestampNs } ∧
      (dnsCacheLookup cache now domain).2.count = cache.count := by
  rw [dnsCacheLookup]
  by_cases hlen : dnsCacheMaxDomainLen < domain.length
  · rw [if_pos hlen]
    exact Or.inl ⟨rfl, rfl, rfl, fun hle => absurd hlen (Nat.not_lt.mpr hle)⟩
  · rw [if_neg hlen]
    cases hfind : dnsCacheFind cache domain with
    | none => exact Or.inl ⟨rfl, rfl, rfl, fun _ i hi => nomatch hi⟩
    | some i =>
      -- an expired entry stays where it is
      cases hexp : dnsEntryExpired (cache.entries i) now with
      | true =>
        left
        refine ⟨?_, ?_, ?_, fun _ j hj => ?_⟩
        · simp only [hexp, if_true]
        · simp only [hexp, if_true]
        · simp only [hexp, if_true]
        · cases hj
          exact hexp
      | false =>
        right
        refine ⟨i, rfl, hexp, ?_, ?_, ?_⟩ <;> simp only [hexp, Bool.false_eq_true, if_false]

/-- A hit answers what the cache says. -/
theorem dnsCacheLookup_some {cache : DnsCache capacity} {now : UInt64} {domain : CStr}
    {action : DnsAction} {ttl : UInt32}
    (h : (dnsCacheLookup cache now domain).1 = some (action, ttl)) : cache.Says domain action := by
  rcases dnsCacheLookup_slots cache now domain with ⟨hnone, -⟩ | ⟨i, hfind, -, hsome, -⟩
  · rw [hnone] at h
    cases h
  · obtain ⟨hvalid, hdomain⟩ := dnsCacheFind_some hfind
    rw [hsome] at h
    exact ⟨i, hvalid, hdomain, (Prod.mk.inj (Option.some.inj h)).1⟩

/-- A lookup changes timestamps only. -/
theorem dnsCacheLookup_verdicts {cache : DnsCache capacity} {now : UInt64} {d domain : CStr}
    {action : DnsAction} :
    (dnsCacheLookup cache now d).2.Says domain action ↔ cache.Says domain action := by
  unfold DnsCache.Says
  rcases dnsCacheLookup_slots cache now d with ⟨-, heq, -⟩ | ⟨i, -, -, -, heq, -⟩
  · rw [heq]
  · rw [heq]
    refine exists_congr fun j => ?_
    by_cases hj : j = i
    · subst hj
      simp only [Function.update_self]
    · simp only [Function.update_of_ne hj]

/-- The entry `dns_cache_insert` stores. -/
def verdictEntry (now : UInt64) (domain : CStr) (action : DnsAction) (ttl : UInt32) :
    DnsCacheEntry :=
  ⟨now, fnv1a domain, ttl, action, true, domain⟩

theorem dnsCacheInsert_refused {cache : DnsCache capacity} {now : UInt64} {domain : CStr}
    {action : DnsAction} {ttl : UInt32} (h : ttl = 0 ∨ dnsCacheMaxDomainLen < domain.length) :
    dnsCacheInsert cache now domain action ttl = (false, cache) := by
  rw [dnsCacheInsert]
  by_cases httl : ttl = 0
  · exact if_pos httl
  · rw [if_neg httl]
    exact if_pos (h.resolve_left httl)

/-- An insert that is not refused does what its scan ends in. -/
theorem dnsCacheInsert_placed (cache : DnsCache capacity) (now : UInt64) {domain : CStr}
    (action : DnsAction) {ttl : UInt32} (httl : ttl ≠ 0)
    (hlen : domain.length ≤ dnsCacheMaxDomainLen) :
    (dnsCacheInsert cache now domain action ttl).1 = true ∧
      (dnsCacheInsert cache now domain action ttl).2.entries =
        (dnsCachePlace cache now domain action ttl).entries ∧
      (dnsCacheInsert cache now domain action ttl).2.count =
        (dnsCachePlace cache now domain action ttl).count := by
  rw [dnsCacheInsert]
  rw [if_neg httl, if_neg (Nat.not_lt.mpr hlen)]
  exact ⟨rfl, rfl, rfl⟩

theorem DnsCacheEntry.isFor_iff {entry : DnsCacheEntry} {hash : UInt32} {domain : CStr} :
    entry.isFor hash domain = true ↔ entry.hash = hash ∧ entry.domain = domain := by
  simp [DnsCacheEntry.isFor]

/-- A refreshed entry is the entry that would have been stored anew. -/
theorem refreshVerdict_eq {entry : DnsCacheEntry} {domain : CStr} (hvalid : entry.valid = true)
    (hfor : entry.isFor (fnv1a domain) domain = true) (now : UInt64) (action : DnsAction)
    (ttl : UInt32) :
    { entry with action := action, ttl := ttl, timestampNs := now } =
      verdictEntry now domain action ttl := by
  obtain ⟨hhash, hdomain⟩ := DnsCacheEntry.isFor_iff.mp hfor
  rw [verdictEntry]
  rw [hhash, hdomain, hvalid]

/-- The slot the scan ends in holds the new entry. -/
theorem dnsCacheInsert_self (cache : DnsCache capacity) (now : UInt64) {domain : CStr}
    (action : DnsAction) {ttl : UInt32} (httl : ttl ≠ 0)
    (hlen : domain.length ≤ dnsCacheMaxDomainLen) :
    (dnsCacheInsert cache now domain action ttl).2.entries
        (dnsCachePlace cache now domain action ttl).idx = verdictEntry now domain action ttl := by
  obtain ⟨-, hentries, -⟩ := dnsCacheInsert_placed cache now action httl hlen
  rw [hentries]
  obtain ⟨-, -, hcase⟩ := Lib.place_cases (dnsSlots now (fnv1a domain) domain)
    DnsCacheEntry.zero rfl 0xffffffffffffffff (List.mem_finRange (firstSlot cache))
    cache.entries cache.count (verdictEntry now domain action ttl)
    fun entry => { entry with action := action, ttl := ttl, timestampNs := now }
  rcases hcase with ⟨-, hself, hvalid, hholds, -⟩ | ⟨-, hself, -⟩
  · exact hself.trans (refreshVerdict_eq hvalid hholds now action ttl)
  · exact hself

/-- **`dns_cache_insert`, when it is not refused**: one slot holds the new entry, every
other slot is kept or wiped, and either the slot held the domain before or no other
slot holds it now. -/
theorem dnsCacheInsert_scan (cache : DnsCache capacity) (now : UInt64) {domain : CStr}
    (action : DnsAction) {ttl : UInt32} (httl : ttl ≠ 0)
    (hlen : domain.length ≤ dnsCacheMaxDomainLen) :
    ∃ i, (dnsCacheInsert cache now domain action ttl).2.entries i =
        verdictEntry now domain action ttl ∧
      (∀ j, j ≠ i →
        (dnsCacheInsert cache now domain action ttl).2.entries j = cache.entries j ∨
        (dnsCacheInsert cache now domain action ttl).2.entries j = .zero) ∧
      (((cache.entries i).valid = true ∧
          (cache.entries i).isFor (fnv1a domain) domain = true) ∨
        ∀ j, j ≠ i → ((dnsCacheInsert cache now domain action ttl).2.entries j).valid = true →
          ((dnsCacheInsert cache now domain action ttl).2.entries j).isFor (fnv1a domain) domain =
            false) := by
  obtain ⟨-, hentries, -⟩ := dnsCacheInsert_placed cache now action httl hlen
  rw [hentries]
  obtain ⟨-, hothers, hcase⟩ := Lib.place_cases (dnsSlots now (fnv1a domain) domain)
    DnsCacheEntry.zero rfl 0xffffffffffffffff (List.mem_finRange (firstSlot cache))
    cache.entries cache.count (verdictEntry now domain action ttl)
    fun entry => { entry with action := action, ttl := ttl, timestampNs := now }
  refine ⟨(dnsCachePlace cache now domain action ttl).idx, ?_, hothers, ?_⟩
  · rw [← hentries]
    exact dnsCacheInsert_self cache now action httl hlen
  · -- refreshed in its own slot, or put where no other slot holds the domain
    rcases hcase with ⟨-, -, hvalid, hholds, -⟩ | ⟨-, -, hsole⟩
    · exact Or.inl ⟨hvalid, hholds⟩
    · exact Or.inr fun j => hsole j (List.mem_finRange j)

/-- **`dns_cache_insert`, by cases**: refused, or one slot gives the domain the new
action and every other slot is kept or wiped. -/
theorem dnsCacheInsert_cases (cache : DnsCache capacity) (now : UInt64) (domain : CStr)
    (action : DnsAction) (ttl : UInt32) :
    ((ttl = 0 ∨ dnsCacheMaxDomainLen < domain.length) ∧
      dnsCacheInsert cache now domain action ttl = (false, cache)) ∨
    (ttl ≠ 0 ∧ domain.length ≤ dnsCacheMaxDomainLen ∧ ∃ i,
      ((dnsCacheInsert cache now domain action ttl).2.entries i).valid = true ∧
      ((dnsCacheInsert cache now domain action ttl).2.entries i).domain = domain ∧
      ((dnsCacheInsert cache now domain action ttl).2.entries i).action = action ∧
      ∀ j, j ≠ i →
        (dnsCacheInsert cache now domain action ttl).2.entries j = cache.entries j ∨
        (dnsCacheInsert cache now domain action ttl).2.entries j = .zero) := by
  by_cases hrefused : ttl = 0 ∨ dnsCacheMaxDomainLen < domain.length
  · exact Or.inl ⟨hrefused, dnsCacheInsert_refused hrefused⟩
  · obtain ⟨httl, hlen⟩ := not_or.mp hrefused
    obtain ⟨i, hi, hothers, -⟩ :=
      dnsCacheInsert_scan cache now action httl (Nat.le_of_not_lt hlen)
    refine Or.inr ⟨httl, Nat.le_of_not_lt hlen, i, ?_, ?_, ?_, hothers⟩ <;> rw [hi] <;> rfl

/-- **What was inserted is served** as long as it has not expired. -/
theorem dnsCacheInsert_served (cache : DnsCache capacity) {now now' : UInt64} {domain : CStr}
    (action : DnsAction) {ttl : UInt32} (httl : ttl ≠ 0)
    (hlen : domain.length ≤ dnsCacheMaxDomainLen) (hexp : expiredAt now ttl now' = false) :
    (dnsCacheLookup (dnsCacheInsert cache now domain action ttl).2 now' domain).1 =
      some (action, ttl) := by
  have hrecord : (verdictEntry now domain action ttl).isFor (fnv1a domain) domain = true :=
    DnsCacheEntry.isFor_iff.mpr ⟨rfl, rfl⟩
  have hrefresh : ∀ e : DnsCacheEntry, e.valid = true → e.isFor (fnv1a domain) domain = true →
      (e.valid && e.isFor (fnv1a domain) domain) = true := by
    intro e hvalid hholds
    rw [hvalid, hholds]
    rfl
  -- the scan of a lookup comes to the slot that was written first
  have hfind : dnsCacheFind (dnsCacheInsert cache now domain action ttl).2 domain =
      some (dnsCachePlace cache now domain action ttl).idx := by
    rw [dnsCacheFind]
    rw [(dnsCacheInsert_placed cache now action httl hlen).2.1]
    exact Lib.place_find (dnsSlots now (fnv1a domain) domain) DnsCacheEntry.zero rfl
      0xffffffffffffffff (List.mem_finRange (firstSlot cache)) (List.nodup_finRange capacity)
      cache.entries cache.count (verdictEntry now domain action ttl)
      (fun entry => { entry with action := action, ttl := ttl, timestampNs := now }) hrecord
      fun e => hrefresh { e with action := action, ttl := ttl, timestampNs := now }
  have hexp' : dnsEntryExpired (verdictEntry now domain action ttl) now' = false := hexp
  rw [dnsCacheLookup]
  rw [if_neg (Nat.not_lt.mpr hlen), hfind]
  dsimp only
  rw [dnsCacheInsert_self cache now action httl hlen, hexp']
  rfl

/-- After an insert the cache says what it said, or the new verdict. -/
theorem dnsCacheInsert_verdicts {cache : DnsCache capacity} {now : UInt64} {d domain : CStr}
    {a action : DnsAction} {ttl : UInt32}
    (h : (dnsCacheInsert cache now d a ttl).2.Says domain action) :
    cache.Says domain action ∨
      (domain = d ∧ action = a ∧ d.length ≤ dnsCacheMaxDomainLen) := by
  rcases dnsCacheInsert_cases cache now d a ttl with ⟨-, heq⟩ | ⟨-, hlen, i, -, hd, ha, hothers⟩
  · rw [heq] at h
    exact Or.inl h
  · obtain ⟨j, hvalid, hdomain, haction⟩ := h
    by_cases hj : j = i
    · subst hj
      exact Or.inr ⟨hdomain.symm.trans hd, haction.symm.trans ha, hlen⟩
    · rcases hothers j hj with heq | hzero
      · rw [heq] at hvalid hdomain haction
        exact Or.inl ⟨j, hvalid, hdomain, haction⟩
      · rw [hzero] at hvalid
        cases hvalid

theorem dnsCacheClear_verdicts {cache : DnsCache capacity} {domain : CStr} {action : DnsAction} :
    ¬ (dnsCacheClear cache).Says domain action := by
  rintro ⟨i, hvalid, -⟩
  cases hvalid

theorem dnsCacheInit_verdicts {cache : DnsCache capacity} (h : dnsCacheInit capacity = some cache)
    {domain : CStr} {action : DnsAction} : ¬ cache.Says domain action := by
  rw [dnsCacheInit] at h
  split at h
  · cases h
    rintro ⟨i, hvalid, -⟩
    cases hvalid
  · cases h

end

end Nyet
