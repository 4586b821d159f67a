import Nyet.Bytes
import Nyet.Lib.SlotScan

/-!
# The answer cache (`answer_cache.c`)

A table of `capacity` slots, `capacity` a power of two. A key hashes to a start
slot, and every operation on it stays inside the `PROBE_WINDOW` slots from there
on. Times are the 64-bit nanosecond readings of `get_timestamp_ns`, passed in;
the arithmetic on them is the source's own and wraps.

The slots are a function on `Fin capacity`, so no index can be out of range.
-/

namespace Nyet

/-- `ANSWER_CACHE_MAX_DOMAIN_LEN` -/
def answerCacheMaxDomainLen : Nat := 95

/-- `ANSWER_CACHE_MAX_RECORDS` -/
def answerCacheMaxRecords : UInt8 := 8

/-- `ANSWER_CACHE_RECORD_BYTES` -/
def answerCacheRecordBytes : UInt8 := 16

/-- `PROBE_WINDOW` -/
def probeWindow : Nat := 8

/-- `answer_cache_answer_t` -/
structure Answer where
  records : List CStr
  numRecords : UInt8
  recordBytes : UInt8
  ttlSeconds : UInt32
  deriving DecidableEq, Repr

/-- `answer_cache_entry_t` -/
structure AnswerEntry where
  timestampNs : UInt64
  hash : UInt64
  ttlSeconds : UInt32
  qtype : UInt16
  numRecords : UInt8
  recordBytes : UInt8
  valid : Bool
  domain : CStr
  records : List CStr
  deriving DecidableEq, Repr

/-- A slot after `memset(entry, 0, sizeof(*entry))`. -/
def AnswerEntry.zero : AnswerEntry := ⟨0, 0, 0, 0, 0, 0, false, [], []⟩

/-- `is_power_of_2` -/
def isPowerOf2 (n : Nat) : Bool := 0 < n && n &&& (n - 1) = 0

/-- `answer_cache_t`, with what `answer_cache_init` has checked. -/
structure AnswerCache (capacity : Nat) where
  entries : Fin capacity → AnswerEntry
  count : Int
  hits : Nat
  misses : Nat
  evictions : Nat
  inserts : Nat
  large : 64 ≤ capacity
  powerOf2 : isPowerOf2 capacity = true

theorem large_of_checked {capacity : Nat} (h : 64 ≤ capacity ∧ isPowerOf2 capacity = true) :
    64 ≤ capacity := h.1

theorem powerOf2_of_checked {capacity : Nat} (h : 64 ≤ capacity ∧ isPowerOf2 capacity = true) :
    isPowerOf2 capacity = true := h.2

/-- `answer_cache_init` with memory to spare. -/
def answerCacheInit (capacity : Nat) : Option (AnswerCache capacity) :=
  if h : 64 ≤ capacity ∧ isPowerOf2 capacity = true then
    some ⟨fun _ => .zero, 0, 0, 0, 0, 0, large_of_checked h, powerOf2_of_checked h⟩
  else none

/-- `hash_key`: 64-bit FNV-1a over the domain, then the qtype folded in. -/
def hashKey (domain : CStr) (qtype : UInt16) : UInt64 :=
  let hash := domain.foldl (fun hash c => (hash ^^^ c.toUInt64) * 0x100000001b3)
    0xcbf29ce484222325
  (hash ^^^ qtype.toUInt64) * 0x100000001b3

/-- `timestamp_ns + ttl_seconds * 1000000000 < now` on 64 bits. -/
def expiredAt (timestampNs : UInt64) (ttlSeconds : UInt32) (now : UInt64) : Bool :=
  timestampNs + ttlSeconds.toUInt64 * 1000000000 < now

/-- `entry_expired` -/
def entryExpired (entry : AnswerEntry) (now : UInt64) : Bool :=
  expiredAt entry.timestampNs entry.ttlSeconds now

/-- The three comparisons that identify a record. -/
def AnswerEntry.isFor (entry : AnswerEntry) (hash : UInt64) (qtype : UInt16) (domain : CStr) :
    Bool :=
  entry.hash = hash && entry.qtype = qtype && entry.domain = domain

section

variable {capacity : Nat}

/-- `(start + step) & (capacity - 1)` -/
def slotAt (cache : AnswerCache capacity) (hash : UInt64) (step : Nat) : Fin capacity :=
  let start := hash.toNat &&& (capacity - 1)
  ⟨(start + step) &&& (capacity - 1),
    Nat.lt_of_le_of_lt Nat.and_le_right
      (Nat.sub_lt (Nat.lt_of_lt_of_le (by decide) cache.large) (by decide))⟩

/-- The slots an operation on this hash examines, in order:
`step < PROBE_WINDOW && step < capacity`. -/
def window (cache : AnswerCache capacity) (hash : UInt64) : List (Fin capacity) :=
  (List.range (min probeWindow capacity)).map (slotAt cache hash)

/-- The first valid slot of a window that holds the key: what the loops of
`answer_cache_lookup` and `answer_cache_invalidate` stop at. -/
def probe (cache : AnswerCache capacity) (domain : CStr) (qtype : UInt16) :
    Option (Fin capacity) :=
  let hash := hashKey domain qtype
  (window cache hash).find? fun idx =>
    (cache.entries idx).valid && (cache.entries idx).isFor hash qtype domain

/-- `copy_out` -/
def copyOut (entry : AnswerEntry) : Answer :=
  ⟨entry.records, entry.numRecords, entry.recordBytes, entry.ttlSeconds⟩

/-- `answer_cache_lookup`: the answer if it returns true, and the cache. -/
def answerCacheLookup (cache : AnswerCache capacity) (now : UInt64) (domain : CStr)
    (qtype : UInt16) : Option Answer × AnswerCache capacity :=
  if answerCacheMaxDomainLen < domain.length then (none, cache)
  else
    match probe cache domain qtype with
    | none => (none, { cache with misses := cache.misses + 1 })
    | some idx =>
      let entry := cache.entries idx
      if entryExpired entry now then
        (none, { cache with
          entries := Function.update cache.entries idx { entry with valid := false }
          count := cache.count - 1
          misses := cache.misses + 1 })
      else
        -- the timestamp is the LRU mark as well as the base of the expiry test
        let ts := if entry.timestampNs < now then now else entry.timestampNs
        (some (copyOut entry), { cache with
          entries := Function.update cache.entries idx { entry with timestampNs := ts }
          hits := cache.hits + 1 })

/-- The argument checks of `answer_cache_insert`. -/
def Acceptable (domain : CStr) (answer : Answer) : Bool :=
  answer.ttlSeconds ≠ 0 && domain.length ≤ answerCacheMaxDomainLen &&
    (answer.numRecords ≠ 0 && answer.numRecords ≤ answerCacheMaxRecords) &&
    (answer.recordBytes ≠ 0 && answer.recordBytes ≤ answerCacheRecordBytes)

/-- The record `answer_cache_insert` stores. -/
def recordFor (now : UInt64) (domain : CStr) (qtype : UInt16) (answer : Answer) : AnswerEntry :=
  ⟨now, hashKey domain qtype, answer.ttlSeconds, qtype, answer.numRecords, answer.recordBytes,
    true, domain, answer.records⟩

/-- What the scan of `answer_cache_insert` asks about a slot. -/
def answerSlots (now : UInt64) (hash : UInt64) (qtype : UInt16) (domain : CStr) :
    Lib.SlotTests AnswerEntry UInt64 where
  valid := (·.valid)
  expired := (entryExpired · now)
  holds := (·.isFor hash qtype domain)
  stamp := (·.timestampNs)

/-- The fields overwritten in place when the key is stored already. -/
def refreshRecord (now : UInt64) (answer : Answer) (entry : AnswerEntry) : AnswerEntry :=
  { entry with
    numRecords := answer.numRecords
    recordBytes := answer.recordBytes
    ttlSeconds := answer.ttlSeconds
    records := answer.records
    timestampNs := now }

/-- The scan of `answer_cache_insert` and what it ends in. -/
def answerCachePlace (cache : AnswerCache capacity) (now : UInt64) (domain : CStr)
    (qtype : UInt16) (answer : Answer) : Lib.Placed (Fin capacity) AnswerEntry :=
  let hash := hashKey domain qtype
  Lib.place (answerSlots now hash qtype domain) .zero 0xffffffffffffffff (slotAt cache hash 0)
    (window cache hash) cache.entries cache.count (recordFor now domain qtype answer)
    (refreshRecord now answer)

/-- `answer_cache_insert` -/
def answerCacheInsert (cache : AnswerCache capacity) (now : UInt64) (domain : CStr)
    (qtype : UInt16) (answer : Answer) : Bool × AnswerCache capacity :=
  if !Acceptable domain answer then (false, cache)
  else
    let placed := answerCachePlace cache now domain qtype answer
    (true, { cache with
      entries := placed.entries
      count := placed.count
      evictions := if placed.placement = .evicting then cache.evictions + 1 else cache.evictions
      inserts := if placed.placement = .refreshed then cache.inserts else cache.inserts + 1 })

/-- One round of `answer_cache_invalidate`: the record for one qtype. -/
def invalidateOne (cache : AnswerCache capacity) (domain : CStr) (qtype : UInt16) :
    Bool × AnswerCache capacity :=
  match probe cache domain qtype with
  | none => (false, cache)
  | some idx => (true, { cache with
      entries := Function.update cache.entries idx .zero
      count := cache.count - 1 })

/-- `answer_cache_invalidate` -/
def answerCacheInvalidate (cache : AnswerCache capacity) (domain : CStr) :
    Bool × AnswerCache capacity :=
  if answerCacheMaxDomainLen < domain.length then (false, cache)
  else
    let (removedA, cache) := invalidateOne cache domain 1
    let (removedAaaa, cache) := invalidateOne cache domain 28
    (removedA || removedAaaa, cache)

/-- `answer_cache_clear` -/
def answerCacheClear (cache : AnswerCache capacity) : AnswerCache capacity :=
  { cache with entries := fun _ => .zero, count := 0 }

/-- `answer_cache_prune_expired` -/
def answerCachePruneExpired (cache : AnswerCache capacity) (currentTimeNs : UInt64) :
    Nat × AnswerCache capacity :=
  let dead := fun i => (cache.entries i).valid && entryExpired (cache.entries i) currentTimeNs
  let pruned := (List.finRange capacity).countP dead
  (pruned, { cache with
    entries := fun i => if dead i then .zero else cache.entries i
    count := cache.count - pruned })

/-! ## What one call can do to the slots -/

@[simp] theorem AnswerEntry.zero_valid : AnswerEntry.zero.valid = false := rfl

theorem AnswerEntry.isFor_iff {entry : AnswerEntry} {hash : UInt64} {qtype : UInt16}
    {domain : CStr} :
    entry.isFor hash qtype domain = true ↔
      entry.hash = hash ∧ entry.qtype = qtype ∧ entry.domain = domain := by
  simp [AnswerEntry.isFor, and_assoc]

theorem slotAt_mem_window (cache : AnswerCache capacity) (hash : UInt64) :
    slotAt cache hash 0 ∈ window cache hash := by
  refine List.mem_map.mpr ⟨0, List.mem_range.mpr ?_, rfl⟩
  have hlarge := cache.large
  rw [probeWindow]
  omega

/-- The window depends on the capacity only. -/
theorem probe_some {cache : AnswerCache capacity} {domain : CStr} {qtype : UInt16}
    {idx : Fin capacity} (h : probe cache domain qtype = some idx) :
    idx ∈ window cache (hashKey domain qtype) ∧ (cache.entries idx).valid = true ∧
      (cache.entries idx).qtype = qtype ∧ (cache.entries idx).domain = domain := by
  have hfound := List.find?_some h
  rw [Bool.and_eq_true, AnswerEntry.isFor_iff] at hfound
  exact ⟨List.mem_of_find?_eq_some h, hfound.1, hfound.2.2⟩

theorem probe_none {cache : AnswerCache capacity} {domain : CStr} {qtype : UInt16}
    (h : probe cache domain qtype = none) {idx : Fin capacity}
    (hidx : idx ∈ window cache (hashKey domain qtype)) (hvalid : (cache.entries idx).valid = true) :
    (cache.entries idx).isFor (hashKey domain qtype) qtype domain = false := by
  have := List.find?_eq_none.mp h idx hidx
  rw [hvalid, Bool.true_and, Bool.not_eq_true] at this
  exact this

/-- **`answer_cache_lookup`, by cases**: a domain too long, nothing stored, a stale
record dropped, a fresh record served and touched. -/
theorem answerCacheLookup_cases (cache : AnswerCache capacity) (now : UInt64) (domain : CStr)
    (qtype : UInt16) :
    (answerCacheMaxDomainLen < domain.length ∧
      answerCacheLookup cache now domain qtype = (none, cache)) ∨
    (domain.length ≤ answerCacheMaxDomainLen ∧ probe cache domain qtype = none ∧
      answerCacheLookup cache now domain qtype =
        (none, { cache with misses := cache.misses + 1 })) ∨
    (domain.length ≤ answerCacheMaxDomainLen ∧ ∃ idx, probe cache domain qtype = some idx ∧
      entryExpired (cache.entries idx) now = true ∧
      (answerCacheLookup cache now domain qtype).1 = none ∧
      (answerCacheLookup cache now domain qtype).2.entries =
        Function.update cache.entries idx { cache.entries idx with valid := false }) ∨
    (domain.length ≤ answerCacheMaxDomainLen ∧ ∃ idx, probe cache domain qtype = some idx ∧
      entryExpired (cache.entries idx) now = false ∧
      (answerCacheLookup cache now domain qtype).1 = some (copyOut (cache.entries idx)) ∧
      (answerCacheLookup cache now domain qtype).2.entries =
        Function.update cache.entries idx { cache.entries idx with
          timestampNs := if (cache.entries idx).timestampNs < now then now
            else (cache.entries idx).timestampNs }) := by
  rw [answerCacheLookup]
  by_cases hlen : answerCacheMaxDomainLen < domain.length
  · exact Or.inl ⟨hlen, if_pos hlen⟩
  · have hle : domain.length ≤ answerCacheMaxDomainLen := Nat.le_of_not_lt hlen
    simp only [if_neg hlen]
    -- the slot that the probe stops at, and then whether its record has expired
    cases hprobe : probe cache domain qtype with
    | none => exact Or.inr (Or.inl ⟨hle, rfl, rfl⟩)
    | some idx =>
      cases hexp : entryExpired (cache.entries idx) now with
      | true =>
        refine Or.inr (Or.inr (Or.inl ⟨hle, idx, rfl, hexp, ?_, ?_⟩)) <;> simp only [hexp, if_true]
      | false =>
        refine Or.inr (Or.inr (Or.inr ⟨hle, idx, rfl, hexp, ?_, ?_⟩)) <;>
          simp only [hexp, Bool.false_eq_true, if_false]

/-- A refreshed record is the record that would have been stored anew. -/
theorem refreshRecord_eq {entry : AnswerEntry} {domain : CStr} {qtype : UInt16}
    (hvalid : entry.valid = true)
    (hfor : entry.isFor (hashKey domain qtype) qtype domain = true) (now : UInt64)
    (answer : Answer) : refreshRecord now answer entry = recordFor now domain qtype answer := by
  obtain ⟨hhash, hqtype, hdomain⟩ := AnswerEntry.isFor_iff.mp hfor
  rw [refreshRecord, recordFor]
  rw [hhash, hqtype, hdomain, hvalid]

/-- **`answer_cache_insert`, by cases**: refused, or one slot of the window holds the
new record, every other slot is kept or wiped, and either the slot held the key
before or no other slot of the window holds it now. -/
theorem answerCacheInsert_cases (cache : AnswerCache capacity) (now : UInt64) (domain : CStr)
    (qtype : UInt16) (answer : Answer) :
    (Acceptable domain answer = false ∧
      answerCacheInsert cache now domain qtype answer = (false, cache)) ∨
    (Acceptable domain answer = true ∧
      (answerCacheInsert cache now domain qtype answer).1 = true ∧
      ∃ idx ∈ window cache (hashKey domain qtype),
        (answerCacheInsert cache now domain qtype answer).2.entries idx =
          recordFor now domain qtype answer ∧
        (∀ j, j ≠ idx →
          (answerCacheInsert cache now domain qtype answer).2.entries j = cache.entries j ∨
          (answerCacheInsert cache now domain qtype answer).2.entries j = .zero) ∧
        (((cache.entries idx).valid = true ∧
            (cache.entries idx).isFor (hashKey domain qtype) qtype domain = true) ∨
          ∀ j ∈ window cache (hashKey domain qtype), j ≠ idx →
            ((answerCacheInsert cache now domain qtype answer).2.entries j).valid = true →
            ((answerCacheInsert cache now domain qtype answer).2.entries j).isFor
              (hashKey domain qtype) qtype domain = false)) := by
  rw [answerCacheInsert]
  cases hacc : Acceptable domain answer with
  | false => exact Or.inl ⟨rfl, by simp⟩
  | true =>
    -- the scan over the window says what happens to every slot
    obtain ⟨hmem, hothers, hcase⟩ := Lib.place_cases
      (answerSlots now (hashKey domain qtype) qtype domain) AnswerEntry.zero rfl
      0xffffffffffffffff (slotAt_mem_window cache (hashKey domain qtype)) cache.entries cache.count
      (recordFor now domain qtype answer) (refreshRecord now answer)
    refine Or.inr ⟨rfl, by simp, _, hmem, ?_, hothers, ?_⟩
    · rcases hcase with ⟨-, hself, hvalid, hholds, -⟩ | ⟨-, hself, -⟩
      · exact hself.trans (refreshRecord_eq hvalid hholds now answer)
      · exact hself
    · rcases hcase with ⟨-, -, hvalid, hholds, -⟩ | ⟨-, -, hsole⟩
      · exact Or.inl ⟨hvalid, hholds⟩
      · exact Or.inr hsole

end

end Nyet
