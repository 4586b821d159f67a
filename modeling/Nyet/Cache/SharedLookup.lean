import Nyet.Cache.AnswerCalls
import Nyet.Lib.Run

/-!
# Lookups that share the answer cache

`answer_cache_lookup` holds its lock shared, so that lookups can meet each other between any two
of their steps; the other operations hold it exclusively. A lookup is a program counter here
(`LookupPc`) that moves by one access to the table at a time, and a run is any list of turns.
A lookup that nobody interrupts is the atomic one (`lookup_alone`).
-/

namespace Nyet

/-- Where a lookup is. -/
inductive LookupPc (capacity : Nat) where
  /-- before it reads `valid` of the next slot of its window -/
  | load (rest : List (Fin capacity))
  /-- before it compares the key and the expiry of a slot that was valid -/
  | compare (idx : Fin capacity) (rest : List (Fin capacity))
  /-- before `InterlockedExchange(&entry->valid, 0)` -/
  | exchange (idx : Fin capacity)
  /-- before `InterlockedDecrement64(&cache->count)` -/
  | decrement
  /-- before `copy_out` -/
  | copy (idx : Fin capacity)
  /-- before it reads `timestamp_ns` -/
  | stamp (idx : Fin capacity) (answer : Answer)
  /-- before it touches the timestamp -/
  | touch (idx : Fin capacity) (answer : Answer) (ts : UInt64)
  /-- the lock is released, a miss is to be counted -/
  | countMiss
  /-- the lock is released, a hit is to be counted -/
  | countHit (answer : Answer)
  | done (answer : Option Answer)

/-- A call of `answer_cache_lookup` and the time it read in the lock. -/
structure LookupCall (capacity : Nat) where
  now : UInt64
  domain : CStr
  qtype : UInt16
  pc : LookupPc capacity

/-- The cache and the lookups there have been. -/
structure SharedCache (capacity : Nat) where
  cache : AnswerCache capacity
  readers : List (LookupCall capacity)

/-- One turn: a lookup enters the lock, a lookup moves on, or an operation has the lock for
itself. -/
inductive CacheTurn where
  | enter (now : UInt64) (domain : CStr) (qtype : UInt16)
  | move (i : Nat)
  | exclusive (call : AnswerCall)

/-- Whether the operation takes the lock exclusively. -/
def AnswerOp.isExclusive : AnswerOp → Bool
  | .lookup _ _ => false
  | _ => true

section

variable {capacity : Nat}

/-- The lock is held. -/
def LookupPc.inLock : LookupPc capacity → Bool
  | .countMiss | .countHit _ | .done _ => false
  | _ => true

/-- The next access of a lookup, and where it is after that. -/
def LookupCall.advance (cache : AnswerCache capacity) (r : LookupCall capacity) :
    AnswerCache capacity × LookupPc capacity :=
  match r.pc with
  | .load [] => (cache, .countMiss)
  | .load (idx :: rest) =>
    (cache, if (cache.entries idx).valid then .compare idx rest else .load rest)
  | .compare idx rest =>
    let entry := cache.entries idx
    (cache,
      if entry.isFor (hashKey r.domain r.qtype) r.qtype r.domain then
        if entryExpired entry r.now then .exchange idx else .copy idx
      else .load rest)
  | .exchange idx =>
    -- what the slot held before is not looked at
    ({ cache with
      entries := Function.update cache.entries idx { cache.entries idx with valid := false } },
      .decrement)
  | .decrement => ({ cache with count := cache.count - 1 }, .countMiss)
  | .copy idx => (cache, .stamp idx (copyOut (cache.entries idx)))
  | .stamp idx answer => (cache, .touch idx answer (cache.entries idx).timestampNs)
  | .touch idx answer ts =>
    (if ts < r.now ∧ (cache.entries idx).timestampNs = ts then
      { cache with
        entries := Function.update cache.entries idx
          { cache.entries idx with timestampNs := r.now } }
    else cache, .countHit answer)
  | .countMiss => ({ cache with misses := cache.misses + 1 }, .done none)
  | .countHit answer => ({ cache with hits := cache.hits + 1 }, .done (some answer))
  | .done answer => (cache, .done answer)

/-- Nobody holds the lock. -/
def SharedCache.Idle (s : SharedCache capacity) : Prop := ∀ r ∈ s.readers, r.pc.inLock = false

instance (s : SharedCache capacity) : Decidable s.Idle :=
  inferInstanceAs (Decidable (∀ r ∈ s.readers, r.pc.inLock = false))

/-- One turn. An operation that needs the lock for itself waits until it is free. -/
def SharedCache.step (s : SharedCache capacity) : CacheTurn → SharedCache capacity
  | .enter now domain qtype =>
    if answerCacheMaxDomainLen < domain.length then s
    else
      let start := window s.cache (hashKey domain qtype)
      { s with readers := s.readers ++ [⟨now, domain, qtype, .load start⟩] }
  | .move i =>
    match s.readers[i]? with
    | none => s
    | some r =>
      let (cache, pc) := r.advance s.cache
      ⟨cache, s.readers.set i { r with pc := pc }⟩
  | .exclusive call =>
    if s.Idle ∧ call.op.isExclusive = true then { s with cache := s.cache.call call } else s

/-- Nobody has looked anything up. -/
def SharedCache.start (cache : AnswerCache capacity) : SharedCache capacity := ⟨cache, []⟩

/-! ## A lookup alone -/

variable {cache : AnswerCache capacity} {r : LookupCall capacity}

theorem step_move {s : SharedCache capacity} {i : Nat} (h : s.readers[i]? = some r) :
    s.step (.move i) =
      ⟨(r.advance s.cache).1, s.readers.set i { r with pc := (r.advance s.cache).2 }⟩ := by
  simp only [SharedCache.step, h]

/-- A lookup gets from one place to another in some moves of its own. -/
def Leads (i : Nat) (r : LookupCall capacity) (cache : AnswerCache capacity)
    (pc : LookupPc capacity) (cache' : AnswerCache capacity) (pc' : LookupPc capacity) : Prop :=
  ∀ readers : List (LookupCall capacity), i < readers.length → ∃ n,
    Lib.run SharedCache.step ⟨cache, readers.set i { r with pc := pc }⟩
      (List.replicate n (.move i)) = ⟨cache', readers.set i { r with pc := pc' }⟩

theorem Leads.refl (i : Nat) (r : LookupCall capacity) (cache : AnswerCache capacity)
    (pc : LookupPc capacity) : Leads i r cache pc cache pc := fun _ _ => ⟨0, rfl⟩

/-- One move, and what follows. -/
theorem Leads.head {i : Nat} {pc pc' : LookupPc capacity} {cache' : AnswerCache capacity}
    (h : Leads i r ({ r with pc := pc }.advance cache).1 ({ r with pc := pc }.advance cache).2
      cache' pc') : Leads i r cache pc cache' pc' := by
  intro readers hi
  obtain ⟨n, hn⟩ := h readers hi
  refine ⟨n + 1, ?_⟩
  have hget : (readers.set i { r with pc := pc })[i]? = some { r with pc := pc } := by
    rw [List.getElem?_set_self hi]
  rw [List.replicate_succ, Lib.run_cons, step_move hget, List.set_set]
  exact hn

/-- The loop over the window ends where the atomic lookup finds its slot, -/
theorem leads_of_find_some {i : Nat} {rest : List (Fin capacity)} {idx : Fin capacity}
    (h : (rest.find? fun idx => (cache.entries idx).valid &&
      (cache.entries idx).isFor (hashKey r.domain r.qtype) r.qtype r.domain) = some idx) :
    Leads i r cache (.load rest) cache
      (if entryExpired (cache.entries idx) r.now then .exchange idx else .copy idx) := by
  induction rest with
  | nil => cases h
  | cons j rest ih =>
    refine Leads.head ?_
    show Leads i r cache (if (cache.entries j).valid then .compare j rest else .load rest) cache _
    -- a slot is compared only where it is valid, so a free one takes one move and another two
    cases hvalid : (cache.entries j).valid with
    | false =>
      rw [List.find?_cons_of_neg (by simp [hvalid])] at h
      exact ih h
    | true =>
      refine Leads.head ?_
      show Leads i r cache (if (cache.entries j).isFor (hashKey r.domain r.qtype) r.qtype r.domain
        then _ else .load rest) cache _
      cases hfor : (cache.entries j).isFor (hashKey r.domain r.qtype) r.qtype r.domain with
      | false =>
        rw [List.find?_cons_of_neg (by simp [hfor])] at h
        exact ih h
      | true =>
        rw [List.find?_cons_of_pos (by simp [hvalid, hfor])] at h
        cases h
        rw [if_pos rfl]
        exact Leads.refl _ _ _ _

/-- and leaves the lock where it finds none. -/
theorem leads_of_find_none {i : Nat} {rest : List (Fin capacity)}
    (h : (rest.find? fun idx => (cache.entries idx).valid &&
      (cache.entries idx).isFor (hashKey r.domain r.qtype) r.qtype r.domain) = none) :
    Leads i r cache (.load rest) cache .countMiss := by
  induction rest with
  | nil => exact Leads.head (Leads.refl _ _ _ _)
  | cons j rest ih =>
    refine Leads.head ?_
    show Leads i r cache (if (cache.entries j).valid then .compare j rest else .load rest) cache _
    rw [List.find?_cons] at h
    split at h
    · cases h
    · next hno =>
      cases hvalid : (cache.entries j).valid with
      | false => exact ih h
      | true =>
        rw [hvalid, Bool.true_and] at hno
        refine Leads.head ?_
        show Leads i r cache (if (cache.entries j).isFor (hashKey r.domain r.qtype) r.qtype r.domain
          then _ else .load rest) cache _
        rw [hno]
        exact ih h

theorem Leads.trans {i : Nat} {pc pc' pc'' : LookupPc capacity}
    {cache' cache'' : AnswerCache capacity} (h : Leads i r cache pc cache' pc')
    (h' : Leads i r cache' pc' cache'' pc'') : Leads i r cache pc cache'' pc'' := by
  intro readers hi
  obtain ⟨n, hn⟩ := h readers hi
  obtain ⟨m, hm⟩ := h' readers hi
  refine ⟨n + m, ?_⟩
  rw [List.replicate_add]
  show List.foldl _ _ (_ ++ _) = _
  rw [List.foldl_append]
  show Lib.run _ (Lib.run _ _ _) _ = _
  rw [hn, hm]

/-- From the first slot of its window a lookup gets, in moves of its own, to the end, with the
answer and the cache `answerCacheLookup` gives. -/
theorem leads_lookup (i : Nat) (r : LookupCall capacity) (cache : AnswerCache capacity)
    (hlen : r.domain.length ≤ answerCacheMaxDomainLen) :
    Leads i r cache (.load (window cache (hashKey r.domain r.qtype)))
      (answerCacheLookup cache r.now r.domain r.qtype).2
      (.done (answerCacheLookup cache r.now r.domain r.qtype).1) := by
  rw [answerCacheLookup, if_neg (Nat.not_lt.mpr hlen)]
  cases hprobe : probe cache r.domain r.qtype with
  | none =>
    refine (leads_of_find_none hprobe).trans (Leads.head ?_)
    exact Leads.refl _ _ _ _
  | some idx =>
    refine (leads_of_find_some hprobe).trans ?_
    dsimp only
    cases hexpired : entryExpired (cache.entries idx) r.now with
    | true => exact Leads.head (Leads.head (Leads.head (Leads.refl _ _ _ _)))
    | false =>
      refine Leads.head (Leads.head (Leads.head (Leads.head ?_)))
      rw [if_neg Bool.false_ne_true]
      dsimp only [LookupCall.advance]
      -- the hit writes its time unless a later one is there
      by_cases hts : (cache.entries idx).timestampNs < r.now
      · rw [if_pos ⟨hts, rfl⟩, if_pos hts]
        exact Leads.refl _ _ _ _
      · rw [if_neg fun hboth => hts hboth.1, if_neg hts]
        rw [Function.update_eq_self]
        exact Leads.refl _ _ _ _

/-- **A lookup that nobody interrupts is the atomic one.** -/
theorem lookup_alone (s : SharedCache capacity) (now : UInt64) {domain : CStr} (qtype : UInt16)
    (hlen : domain.length ≤ answerCacheMaxDomainLen) :
    ∃ n, Lib.run SharedCache.step s
        (.enter now domain qtype :: List.replicate n (.move s.readers.length)) =
      ⟨(answerCacheLookup s.cache now domain qtype).2,
        s.readers ++ [⟨now, domain, qtype,
          .done (answerCacheLookup s.cache now domain qtype).1⟩]⟩ := by
  have hset : ∀ r r' : LookupCall capacity,
      (s.readers ++ [r]).set s.readers.length r' = s.readers ++ [r'] := fun r r' => by simp
  obtain ⟨n, hn⟩ := leads_lookup s.readers.length
    ⟨now, domain, qtype, .load (window s.cache (hashKey domain qtype))⟩ s.cache hlen
    (s.readers ++ [⟨now, domain, qtype, .load (window s.cache (hashKey domain qtype))⟩])
    (by simp)
  rw [hset, hset] at hn
  refine ⟨n, ?_⟩
  rw [Lib.run_cons, SharedCache.step, if_neg (Nat.not_lt.mpr hlen)]
  exact hn

end

end Nyet
