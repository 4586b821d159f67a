import Nyet.Cache.AnswerCalls
import Nyet.Lib.Run

/-!
# The answer cache as a map

Without its slots the cache is a map from keys to answers: an insert binds a key, an
invalidation unbinds both keys of a domain, a clear unbinds all (`latestStep`). The
table may forget a binding, by age or by eviction, but it never has another one:
`answerCache_bounded_map` says so for every sequence of calls, together with where the
one slot of a key can be.
-/

namespace Nyet

/-- The cache, and the last successful insert of each key that no invalidation of its
domain and no clear has followed. -/
structure MappedCache (capacity : Nat) where
  cache : AnswerCache capacity
  latest : AnswerKey → Option Answer

section

variable {capacity : Nat}

/-- The bindings after a call. -/
def MappedCache.latestStep (s : MappedCache capacity) (c : AnswerCall) :
    AnswerKey → Option Answer :=
  match c.op with
  | .insert domain qtype answer =>
    if (answerCacheInsert s.cache c.now domain qtype answer).1 then
      Function.update s.latest (domain, qtype) (some answer)
    else s.latest
  | .invalidate domain => fun key => if key.1 = domain then none else s.latest key
  | .clear => fun _ => none
  | .lookup _ _ | .prune => s.latest

/-- A fresh cache. -/
def MappedCache.init (cache : AnswerCache capacity) : MappedCache capacity := ⟨cache, fun _ => none⟩

/-- One call. -/
def MappedCache.step (s : MappedCache capacity) (c : AnswerCall) : MappedCache capacity :=
  ⟨s.cache.call c, s.latestStep c⟩

/-- An insert is for an A or an AAAA answer. -/
def AnswerOp.IsAddress : AnswerOp → Prop
  | .insert _ qtype _ => qtype = 1 ∨ qtype = 28
  | _ => True

/-- No two slots hold a key, and the one that does is in the window of its hash. -/
def OneSlotPerKey (s : MappedCache capacity) : Prop :=
  ∀ domain qtype i, (s.cache.entries i).Holds domain qtype →
    i ∈ window s.cache (hashKey domain qtype) ∧
      ∀ j, (s.cache.entries j).Holds domain qtype → j = i

/-- A lookup that returns true returns the binding of its key. -/
def ServesLatest (s : MappedCache capacity) (c : AnswerCall) : Prop :=
  match c.op with
  | .lookup domain qtype =>
    ∀ answer, (answerCacheLookup s.cache c.now domain qtype).1 = some answer →
      s.latest (domain, qtype) = some answer
  | _ => True

/-! ## The table agrees with the map -/

/-- Every record is the binding of its key. -/
structure Maps (cache : AnswerCache capacity) (latest : AnswerKey → Option Answer) : Prop where
  placed : cache.WellPlaced
  address : ∀ i, (cache.entries i).valid = true →
    (cache.entries i).qtype = 1 ∨ (cache.entries i).qtype = 28
  bound : ∀ i, (cache.entries i).valid = true →
    latest ((cache.entries i).domain, (cache.entries i).qtype) = some (copyOut (cache.entries i))

theorem Maps.init {cache : AnswerCache capacity} (h : ∀ i, cache.entries i = .zero) :
    Maps cache fun _ => none := by
  have hno : ∀ i, ¬ (cache.entries i).valid = true := fun i hi => by rw [h i] at hi; cases hi
  exact ⟨.of_empty h, fun i hi => absurd hi (hno i), fun i hi => absurd hi (hno i)⟩

variable {cache : AnswerCache capacity} {latest : AnswerKey → Option Answer}

/-- Slots may be wiped, and keys that no slot holds may be unbound. -/
theorem Maps.of_wiped (h : Maps cache latest) {cache' : AnswerCache capacity}
    {latest' : AnswerKey → Option Answer}
    (hw : ∀ i, cache'.entries i = cache.entries i ∨ cache'.entries i = .zero)
    (hlatest : ∀ i, (cache'.entries i).valid = true →
      latest' ((cache'.entries i).domain, (cache'.entries i).qtype) =
        latest ((cache'.entries i).domain, (cache'.entries i).qtype)) :
    Maps cache' latest' := by
  refine ⟨h.placed.of_wiped hw, fun i hi => ?_, fun i hi => ?_⟩
  · have heq := kept_of_wiped hw hi
    rw [heq] at hi ⊢
    exact h.address i hi
  · rw [hlatest i hi]
    have heq := kept_of_wiped hw hi
    rw [heq] at hi ⊢
    exact h.bound i hi

theorem Maps.insert (h : Maps cache latest) (now : UInt64) (domain : CStr) {qtype : UInt16}
    (hq : qtype = 1 ∨ qtype = 28) (answer : Answer) :
    Maps (answerCacheInsert cache now domain qtype answer).2
      (if (answerCacheInsert cache now domain qtype answer).1 then
        Function.update latest (domain, qtype) (some answer) else latest) := by
  have hplaced := h.placed.insert now domain qtype answer
  rcases answerCacheInsert_cases cache now domain qtype answer with
    ⟨-, heq⟩ | ⟨hacc, htrue, -⟩
  · rw [heq]
    exact h
  · rw [if_pos htrue]
    -- the key is in one slot now, and every other slot is kept or wiped
    obtain ⟨idx, -, hidx, hothers⟩ := h.placed.insert_slots now qtype hacc
    generalize (answerCacheInsert cache now domain qtype answer).2 = cache' at hidx hothers hplaced ⊢
    refine ⟨hplaced, fun i hi => ?_, fun i hi => ?_⟩
    · by_cases hii : i = idx
      · subst hii
        rw [hidx]
        exact hq
      · obtain ⟨heq, -⟩ := hothers i hii hi
        rw [heq] at hi ⊢
        exact h.address i hi
    · by_cases hii : i = idx
      · subst hii
        rw [hidx]
        exact Function.update_self ..
      · obtain ⟨heq, hno⟩ := hothers i hii hi
        rw [heq] at hi ⊢
        rw [Function.update_of_ne]
        · exact h.bound i hi
        · intro hpair
          obtain ⟨hd, hq⟩ := Prod.mk.inj hpair
          exact hno ⟨hi, hd, hq⟩

/-- A lookup changes the timestamp of a record at most, and that is not copied out. -/
theorem Maps.lookup (h : Maps cache latest) (now : UInt64) (domain : CStr) (qtype : UInt16) :
    Maps (answerCacheLookup cache now domain qtype).2 latest := by
  have hplaced := h.placed.lookup now domain qtype
  have hslots := h.placed.lookup_slots now domain qtype
  generalize (answerCacheLookup cache now domain qtype).2 = cache' at hplaced hslots ⊢
  -- a miss changes no slot, a hit one slot
  rcases hslots with ⟨hentries, -⟩ | ⟨idx, e, hholds, hentries, he⟩
  · refine ⟨hplaced, fun i hi => ?_, fun i hi => ?_⟩
    · rw [hentries] at hi ⊢
      exact h.address i hi
    · rw [hentries] at hi ⊢
      exact h.bound i hi
  · refine ⟨hplaced, fun i hi => ?_, fun i hi => ?_⟩
    · rw [hentries] at hi ⊢
      by_cases hii : i = idx
      · subst hii
        rw [Function.update_self] at hi ⊢
        rw [he hi]
        exact h.address i hholds.1
      · rw [Function.update_of_ne hii] at hi ⊢
        exact h.address i hi
    · rw [hentries] at hi ⊢
      by_cases hii : i = idx
      · subst hii
        rw [Function.update_self] at hi ⊢
        rw [he hi]
        exact h.bound i hholds.1
      · rw [Function.update_of_ne hii] at hi ⊢
        exact h.bound i hi

/-- An invalidation unbinds the domain, and no slot holds it any more. -/
theorem Maps.invalidate (h : Maps cache latest) (domain : CStr) :
    Maps (answerCacheInvalidate cache domain).2
      fun key => if key.1 = domain then none else latest key := by
  have hw := answerCacheInvalidate_entries cache domain
  refine h.of_wiped hw fun i hi => if_neg fun hd => ?_
  have haddress := h.address i (kept_of_wiped hw hi ▸ hi)
  rw [← kept_of_wiped hw hi] at haddress
  exact h.placed.invalidate_gone domain haddress i ⟨hi, hd, rfl⟩

/-- **One call keeps the table in agreement with the map.** -/
theorem Maps.step {s : MappedCache capacity} (h : Maps s.cache s.latest) {c : AnswerCall}
    (hc : c.op.IsAddress) : Maps (s.step c).cache (s.step c).latest := by
  obtain ⟨now, op⟩ := c
  cases op with
  | insert domain qtype answer => exact h.insert now domain hc answer
  | lookup domain qtype => exact h.lookup now domain qtype
  | invalidate domain => exact h.invalidate domain
  | clear => exact h.of_wiped (fun _ => Or.inr rfl) fun i hi => nomatch hi
  | prune => exact h.of_wiped (answerCachePruneExpired_entries s.cache now) fun _ _ => rfl

theorem Maps.oneSlotPerKey {s : MappedCache capacity} (h : Maps s.cache s.latest) :
    OneSlotPerKey s := by
  rintro domain qtype i ⟨hv, rfl, rfl⟩
  refine ⟨h.placed.window i hv, ?_⟩
  rintro j ⟨hvj, hd, hq⟩
  exact h.placed.unique j i hvj hv hd hq

theorem Maps.servesLatest {s : MappedCache capacity} (h : Maps s.cache s.latest)
    (c : AnswerCall) : ServesLatest s c := by
  obtain ⟨now, op⟩ := c
  cases op with
  | lookup domain qtype =>
    intro answer hserved
    obtain ⟨idx, hprobe, hexp⟩ := answerCacheLookup_isSome (Option.isSome_of_eq_some hserved)
    obtain ⟨-, hv, hq, hd⟩ := probe_some hprobe
    rw [answerCacheLookup_serves h.placed ⟨hv, hd, hq⟩ hexp] at hserved
    rw [← hserved, ← hd, ← hq]
    exact h.bound idx hv
  | _ => trivial

/-- **The answer cache is a bounded map.** Along every sequence of calls on a new cache
that inserts A and AAAA answers, a key is in one slot at most, within the window of its
hash, and a lookup that returns true returns the last successful insert of its key,
which no invalidation of the domain and no clear has followed. -/
theorem answerCache_bounded_map {cache : AnswerCache capacity}
    (hinit : answerCacheInit capacity = some cache) (calls : List AnswerCall)
    (haddress : ∀ c ∈ calls, c.op.IsAddress) :
    Lib.EveryState MappedCache.step OneSlotPerKey (.init cache) calls ∧
      Lib.EveryStep MappedCache.step ServesLatest (.init cache) calls := by
  have hstart : Maps (MappedCache.init cache).cache (MappedCache.init cache).latest :=
    Maps.init (answerCacheInit_zero hinit)
  have hcalls : Lib.EveryStep MappedCache.step (fun _ c => c.op.IsAddress) (.init cache) calls :=
    Lib.everyStep_of_mem (fun _ c hc => haddress c hc) _
  have hstep : ∀ (s : MappedCache capacity) (c : AnswerCall), Maps s.cache s.latest →
      c.op.IsAddress → Maps (s.step c).cache (s.step c).latest := fun _ _ hs hc => hs.step hc
  exact ⟨.of_invariant hstep (fun _ hs => hs.oneSlotPerKey) hstart hcalls,
    .of_invariant hstep (fun _ c hs _ => hs.servesLatest c) hstart hcalls⟩

end

/-- Two inserts of one key, a lookup that returns the second, an invalidation, a lookup. -/
theorem answerCache_bounded_map_rebound : ∃ cache, answerCacheInit 64 = some cache ∧
    Lib.EveryState MappedCache.step OneSlotPerKey (.init cache)
      [⟨0, .insert (cstr "a.com") 1 ⟨[[192, 0, 2, 1]], 1, 4, 10⟩⟩,
        ⟨1, .insert (cstr "a.com") 1 ⟨[[192, 0, 2, 2]], 1, 4, 20⟩⟩,
        ⟨2, .lookup (cstr "a.com") 1⟩, ⟨3, .invalidate (cstr "a.com")⟩,
        ⟨4, .lookup (cstr "a.com") 1⟩] ∧
    Lib.EveryStep MappedCache.step ServesLatest (.init cache)
      [⟨0, .insert (cstr "a.com") 1 ⟨[[192, 0, 2, 1]], 1, 4, 10⟩⟩,
        ⟨1, .insert (cstr "a.com") 1 ⟨[[192, 0, 2, 2]], 1, 4, 20⟩⟩,
        ⟨2, .lookup (cstr "a.com") 1⟩, ⟨3, .invalidate (cstr "a.com")⟩,
        ⟨4, .lookup (cstr "a.com") 1⟩] := by
  refine ⟨_, rfl, answerCache_bounded_map rfl _ ?_⟩
  simp [AnswerOp.IsAddress]

end Nyet
