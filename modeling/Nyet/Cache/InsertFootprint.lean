import Nyet.Cache.Expiry
import Nyet.Lib.Run

/-!
# What an insert changes

An insert stays within the window of its key. There it takes a slot without a live entry
of another key, if it finds one, and else the oldest of them, and a lookup of the key at
the same time finds the answer. That is so unless the end of the answer's life is out of the
range of the clock, where the sum in `entry_expired` wraps (`bounded_footprint_iff`), and no
counter of two ticks a second or more comes near that (`bounded_footprint`).
-/

namespace Nyet

section

variable {capacity : Nat}

/-- A valid entry of another key that has not expired. -/
structure AnswerEntry.LiveOther (e : AnswerEntry) (now : UInt64) (domain : CStr)
    (qtype : UInt16) : Prop where
  valid : e.valid = true
  unexpired : entryExpired e now = false
  other : ¬ (e.domain = domain ∧ e.qtype = qtype)

/-- All slots of the window hold live entries of other keys. -/
def Crowded (cache : AnswerCache capacity) (now : UInt64) (domain : CStr) (qtype : UInt16) : Prop :=
  ∀ i ∈ window cache (hashKey domain qtype), (cache.entries i).LiveOther now domain qtype

/-- What an insert that returns true leaves behind. -/
structure InsertFootprint (cache after : AnswerCache capacity) (now : UInt64) (domain : CStr)
    (qtype : UInt16) (answer : Answer) : Prop where
  outside : ∀ i, i ∉ window cache (hashKey domain qtype) → after.entries i = cache.entries i
  inside : ¬ Crowded cache now domain qtype → ∀ i ∈ window cache (hashKey domain qtype),
    (cache.entries i).LiveOther now domain qtype → after.entries i = cache.entries i
  crowded : Crowded cache now domain qtype → ∃ i ∈ window cache (hashKey domain qtype),
    (∀ j ∈ window cache (hashKey domain qtype),
      (cache.entries i).timestampNs ≤ (cache.entries j).timestampNs) ∧
    after.entries i = recordFor now domain qtype answer ∧
    ∀ j, j ≠ i → after.entries j = cache.entries j
  served : (answerCacheLookup after now domain qtype).1 = some answer

/-- An insert that returns true has a bounded footprint, and one that returns false none. -/
def BoundedFootprint (cache : AnswerCache capacity) (now : UInt64) (domain : CStr)
    (qtype : UInt16) (answer : Answer) : Prop :=
  match answerCacheInsert cache now domain qtype answer with
  | (true, after) => InsertFootprint cache after now domain qtype answer
  | (false, after) => after = cache

/-! ## The window -/

section

variable {cache : AnswerCache capacity} {now : UInt64} {domain : CStr} {qtype : UInt16}
  {answer : Answer}

/-- Live entries of other keys, as the scan sees them. -/
theorem AnswerCache.WellPlaced.liveOther_iff (h : cache.WellPlaced) (i : Fin capacity) :
    (cache.entries i).LiveOther now domain qtype ↔
      (answerSlots now (hashKey domain qtype) qtype domain).Live (cache.entries i) ∧
        (cache.entries i).isFor (hashKey domain qtype) qtype domain = false := by
  rw [← Bool.not_eq_true, AnswerEntry.isFor_iff]
  constructor
  · rintro ⟨hvalid, hexp, hother⟩
    exact ⟨⟨hvalid, hexp⟩, fun ⟨_, hq, hd⟩ => hother ⟨hd, hq⟩⟩
  · rintro ⟨⟨hvalid, hexp⟩, hnot⟩
    refine ⟨hvalid, hexp, fun ⟨hd, hq⟩ => hnot ⟨?_, hq, hd⟩⟩
    rw [h.hash i hvalid, hd, hq]

/-- **The entries after an insert** that is accepted. -/
theorem answerCacheInsert_place (hacc : Acceptable domain answer = true) :
    (answerCacheInsert cache now domain qtype answer).1 = true ∧
      (answerCacheInsert cache now domain qtype answer).2.entries =
        (answerCachePlace cache now domain qtype answer).entries := by
  rw [answerCacheInsert, hacc]
  exact ⟨rfl, rfl⟩

/-- Nothing outside of the window is touched. -/
theorem answerCachePlace_outside (answer : Answer) {i : Fin capacity}
    (hi : i ∉ window cache (hashKey domain qtype)) :
    (answerCachePlace cache now domain qtype answer).entries i = cache.entries i :=
  Lib.place_outside _ _ _ (slotAt_mem_window cache _) _ _ _ _ hi

/-- Crowded or not, as the scan sees it. -/
theorem AnswerCache.WellPlaced.place_live (h : cache.WellPlaced) (answer : Answer) :
    (¬ Crowded cache now domain qtype ∧ ∀ i, (cache.entries i).LiveOther now domain qtype →
        (answerCachePlace cache now domain qtype answer).entries i = cache.entries i) ∨
      (Crowded cache now domain qtype ∧ ∃ i ∈ Nyet.window cache (hashKey domain qtype),
        (∀ j ∈ Nyet.window cache (hashKey domain qtype),
          (cache.entries i).timestampNs ≤ (cache.entries j).timestampNs) ∧
        (answerCachePlace cache now domain qtype answer).entries =
          Function.update cache.entries i (recordFor now domain qtype answer)) := by
  have hmem := (Lib.place_cases (answerSlots now (hashKey domain qtype) qtype domain)
    AnswerEntry.zero rfl 0xffffffffffffffff (slotAt_mem_window cache (hashKey domain qtype))
    cache.entries cache.count (recordFor now domain qtype answer) (refreshRecord now answer)).1
  rcases Lib.place_live rank64 (answerSlots now (hashKey domain qtype) qtype domain)
      AnswerEntry.zero rank64_latest (slotAt cache (hashKey domain qtype) 0)
      (Nyet.window cache (hashKey domain qtype)) cache.entries cache.count
      (recordFor now domain qtype answer) (refreshRecord now answer) with
    ⟨hkept, -, j, hj, hfree⟩ | ⟨hall, -, hentries, holdest⟩
  · refine Or.inl ⟨fun hcrowded => hfree ?_, fun i hi => ?_⟩
    · exact (h.liveOther_iff j).mp (hcrowded j hj)
    · obtain ⟨hlive, hother⟩ := (h.liveOther_iff i).mp hi
      exact hkept i hlive hother
  · refine Or.inr ⟨fun i hi => (h.liveOther_iff i).mpr (hall i hi), _, hmem, fun j hj => ?_,
      hentries⟩
    exact UInt64.le_iff_toNat_le.mpr (holdest j hj)

/-- What is looked up at the time it was inserted is found unless it has expired by then. -/
theorem AnswerCache.WellPlaced.served_iff (h : cache.WellPlaced)
    (hacc : Acceptable domain answer = true) :
    (answerCacheLookup (answerCacheInsert cache now domain qtype answer).2 now domain qtype).1 =
        some answer ↔ expiredAt now answer.ttlSeconds now = false := by
  obtain ⟨idx, -, hidx, -⟩ := h.insert_slots now qtype hacc
  have hplaced := h.insert now domain qtype answer
  generalize (answerCacheInsert cache now domain qtype answer).2 = after at hidx hplaced ⊢
  have hholds : (after.entries idx).Holds domain qtype := by
    rw [hidx]
    exact ⟨rfl, rfl, rfl⟩
  have hexp : entryExpired (after.entries idx) now = expiredAt now answer.ttlSeconds now := by
    rw [hidx]
    rfl
  constructor
  · intro hserved
    obtain ⟨found, hprobe, hfresh⟩ := answerCacheLookup_isSome (Option.isSome_of_eq_some hserved)
    rw [hplaced.probe_eq hholds] at hprobe
    cases hprobe
    rwa [hexp] at hfresh
  · intro hfresh
    rw [answerCacheLookup_serves hplaced hholds (hexp.trans hfresh), hidx]
    rfl

/-- **The footprint of an insert**, in a well-placed cache. -/
theorem AnswerCache.WellPlaced.boundedFootprint_iff (h : cache.WellPlaced) :
    BoundedFootprint cache now domain qtype answer ↔
      (Acceptable domain answer = true → now.toNat + answer.ttlSeconds.toNat * 10 ^ 9 < 2 ^ 64) := by
  rw [BoundedFootprint]
  cases hacc : Acceptable domain answer with
  | false =>
    rw [answerCacheInsert_refused hacc]
    exact ⟨fun _ hfalse => absurd hfalse Bool.false_ne_true, fun _ => rfl⟩
  | true =>
    obtain ⟨htrue, hentries⟩ := @answerCacheInsert_place _ cache now domain qtype answer hacc
    have hserved := @AnswerCache.WellPlaced.served_iff _ cache now domain qtype answer h hacc
    -- of the four guarantees only the last one, that the record is served, depends on the clock
    have hwrap := not_congr (@expiredAt_self_iff now answer.ttlSeconds)
    rw [Bool.not_eq_true, Nat.not_le] at hwrap
    rcases hinsert : answerCacheInsert cache now domain qtype answer with ⟨inserted, after⟩
    rw [hinsert] at htrue hentries hserved
    cases htrue
    dsimp only at hentries hserved ⊢
    constructor
    · exact fun hprint _ => hwrap.mp (hserved.mp hprint.served)
    · intro hrange
      refine ⟨fun i hi => ?_, fun hfree i _ hi => ?_, fun hcrowded => ?_,
        hserved.mpr (hwrap.mpr (hrange rfl))⟩
      · rw [hentries]
        exact answerCachePlace_outside answer hi
      · rw [hentries]
        rcases h.place_live answer with ⟨-, hkept⟩ | ⟨hcrowded, -⟩
        · exact hkept i hi
        · exact absurd hcrowded hfree
      · rcases h.place_live answer with ⟨hfree, -⟩ | ⟨-, i, hi, holdest, hplaced⟩
        · exact absurd hcrowded hfree
        · refine ⟨i, hi, holdest, ?_, fun j hj => ?_⟩
          · rw [hentries, hplaced, Function.update_self]
          · rw [hentries, hplaced, Function.update_of_ne hj]

/-- Every reachable cache is well placed. -/
theorem AnswerCache.WellPlaced.run (h : cache.WellPlaced) (calls : List AnswerCall) :
    (Lib.run AnswerCache.call cache calls).WellPlaced :=
  Lib.run_invariant_of_everyStep (fun _ c hplaced _ => hplaced.call c) h
    (Lib.everyStep_of_mem (fun _ _ _ => trivial) cache)

end

end

/-! ## In every reachable state -/

/-- **When an insert has a bounded footprint**: in every reachable state and at every time,
exactly if it is refused or the end of the answer's life does not wrap. -/
theorem bounded_footprint_iff {capacity : Nat} {cache : AnswerCache capacity}
    (hinit : answerCacheInit capacity = some cache) (calls : List AnswerCall) (now : UInt64)
    (domain : CStr) (qtype : UInt16) (answer : Answer) :
    BoundedFootprint (Lib.run AnswerCache.call cache calls) now domain qtype answer ↔
      (Acceptable domain answer = true → now.toNat + answer.ttlSeconds.toNat * 10 ^ 9 < 2 ^ 64) :=
  ((AnswerCache.WellPlaced.of_empty (answerCacheInit_zero hinit)).run calls).boundedFootprint_iff

/-- A counter of two ticks a second or more leaves the upper half of the clock unused, and no
answer lives so long. -/
theorem getTimestampNs_add_ttl (c : UInt64) {f : UInt64} (hf : 2 ≤ f) (ttl : UInt32) :
    (getTimestampNs c f).toNat + ttl.toNat * 10 ^ 9 < 2 ^ 64 := by
  have hticks : 2 ≤ f.toNat := UInt64.le_iff_toNat_le.mp hf
  have hclock : (getTimestampNs c f).toNat ≤ (2 ^ 64 - 1) / 2 := by
    rw [getTimestampNs]
    rw [UInt64.toNat_div]
    exact Nat.div_le_div (Nat.le_pred_of_lt (UInt64.toNat_lt _)) hticks (by decide)
  have httl : ttl.toNat < 2 ^ 32 := UInt32.toNat_lt ttl
  omega

/-- **An insert has a bounded footprint**, in every reachable state and whatever the counter
shows. -/
theorem bounded_footprint {capacity : Nat} {cache : AnswerCache capacity}
    (hinit : answerCacheInit capacity = some cache) (calls : List AnswerCall) (c : UInt64)
    {f : UInt64} (hf : 2 ≤ f) (domain : CStr) (qtype : UInt16) (answer : Answer) :
    BoundedFootprint (Lib.run AnswerCache.call cache calls) (getTimestampNs c f) domain qtype
      answer :=
  (bounded_footprint_iff hinit calls _ domain qtype answer).mpr fun _ =>
    getTimestampNs_add_ttl c hf answer.ttlSeconds

/-- An answer for `a.com`. -/
def exampleAnswer : Answer := ⟨[[192, 0, 2, 1]], 1, 4, 60⟩

/-- After an insert and a lookup, at a counter of ten million ticks a second. -/
theorem bounded_footprint_two_calls :
    ∃ cache : AnswerCache 64, answerCacheInit 64 = some cache ∧
      Acceptable (cstr "b.com") exampleAnswer = true ∧
      BoundedFootprint (Lib.run AnswerCache.call cache
          [⟨0, .insert (cstr "a.com") 1 exampleAnswer⟩, ⟨1, .lookup (cstr "a.com") 1⟩])
        (getTimestampNs 20000000 10000000) (cstr "b.com") 1 exampleAnswer :=
  ⟨_, rfl, by decide, bounded_footprint rfl _ 20000000 (by decide) (cstr "b.com") 1 exampleAnswer⟩

end Nyet
