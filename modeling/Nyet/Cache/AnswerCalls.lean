import Nyet.Cache.AnswerCache

/-!
# Calls on the answer cache

A call is an operation and the time it reads. What every call keeps: a record lies in
the window of its key, and no key has two (`AnswerCache.WellPlaced`). Given that, an
insert leaves the key in one slot (`AnswerCache.WellPlaced.insert_slots`), a lookup
changes the slot of its key only, and an invalidation takes the key out.
-/

namespace Nyet

/-- A call on the answer cache. -/
inductive AnswerOp where
  | insert (domain : CStr) (qtype : UInt16) (answer : Answer)
  | lookup (domain : CStr) (qtype : UInt16)
  | invalidate (domain : CStr)
  | clear
  | prune

/-- A call and the time it reads. -/
structure AnswerCall where
  now : UInt64
  op : AnswerOp

/-- A key of the cache. -/
abbrev AnswerKey := CStr × UInt16

section

variable {capacity : Nat}

/-- The cache after a call. -/
def AnswerCache.call (cache : AnswerCache capacity) (c : AnswerCall) : AnswerCache capacity :=
  match c.op with
  | .insert domain qtype answer => (answerCacheInsert cache c.now domain qtype answer).2
  | .lookup domain qtype => (answerCacheLookup cache c.now domain qtype).2
  | .invalidate domain => (answerCacheInvalidate cache domain).2
  | .clear => answerCacheClear cache
  | .prune => (answerCachePruneExpired cache c.now).2

/-- The slot holds a record of the key. -/
def AnswerEntry.Holds (e : AnswerEntry) (domain : CStr) (qtype : UInt16) : Prop :=
  e.valid = true ∧ e.domain = domain ∧ e.qtype = qtype

/-! ## Where records stand -/

/-- Every record lies in the window of its key, and no key has two. -/
structure AnswerCache.WellPlaced (cache : AnswerCache capacity) : Prop where
  hash : ∀ i, (cache.entries i).valid = true →
    (cache.entries i).hash = hashKey (cache.entries i).domain (cache.entries i).qtype
  window : ∀ i, (cache.entries i).valid = true →
    i ∈ Nyet.window cache (hashKey (cache.entries i).domain (cache.entries i).qtype)
  short : ∀ i, (cache.entries i).valid = true →
    (cache.entries i).domain.length ≤ answerCacheMaxDomainLen
  unique : ∀ i j, (cache.entries i).valid = true → (cache.entries j).valid = true →
    (cache.entries i).domain = (cache.entries j).domain →
    (cache.entries i).qtype = (cache.entries j).qtype → i = j

/-- Every record of `cache'` was there before, under the same key. -/
def KeepsKeys (cache cache' : AnswerCache capacity) : Prop :=
  ∀ i, (cache'.entries i).valid = true →
    (cache.entries i).valid = true ∧ (cache'.entries i).hash = (cache.entries i).hash ∧
      (cache'.entries i).domain = (cache.entries i).domain ∧
      (cache'.entries i).qtype = (cache.entries i).qtype

theorem AnswerCache.WellPlaced.of_keepsKeys {cache cache' : AnswerCache capacity}
    (h : cache.WellPlaced) (hk : KeepsKeys cache cache') : cache'.WellPlaced := by
  refine ⟨fun i hi => ?_, fun i hi => ?_, fun i hi => ?_, fun i j hi hj hd hq => ?_⟩
  · obtain ⟨hv, hhash, hdom, hqt⟩ := hk i hi
    rw [hhash, hdom, hqt]
    exact h.hash i hv
  · obtain ⟨hv, -, hdom, hqt⟩ := hk i hi
    rw [hdom, hqt]
    exact h.window i hv
  · obtain ⟨hv, -, hdom, -⟩ := hk i hi
    rw [hdom]
    exact h.short i hv
  · obtain ⟨hvi, -, hdi, hqi⟩ := hk i hi
    obtain ⟨hvj, -, hdj, hqj⟩ := hk j hj
    exact h.unique i j hvi hvj (hdi ▸ hdj ▸ hd) (hqi ▸ hqj ▸ hq)

/-- A stored key is found where it stands. -/
theorem AnswerCache.WellPlaced.probe_eq {cache : AnswerCache capacity} (h : cache.WellPlaced)
    {domain : CStr} {qtype : UInt16} {idx : Fin capacity}
    (hidx : (cache.entries idx).Holds domain qtype) : probe cache domain qtype = some idx := by
  obtain ⟨hvalid, hdom, hqt⟩ := hidx
  cases hprobe : probe cache domain qtype with
  | none =>
    have hw := h.window idx hvalid
    have hhash := h.hash idx hvalid
    rw [hdom, hqt] at hw hhash
    have := probe_none hprobe hw hvalid
    rw [AnswerEntry.isFor_iff.mpr ⟨hhash, hqt, hdom⟩] at this
    cases this
  | some j =>
    obtain ⟨-, hv, hq, hd⟩ := probe_some hprobe
    rw [h.unique j idx hv hvalid (hd.trans hdom.symm) (hq.trans hqt.symm)]

theorem invalidateOne_entries (cache : AnswerCache capacity) (domain : CStr) (qtype : UInt16)
    (i : Fin capacity) :
    (invalidateOne cache domain qtype).2.entries i = cache.entries i ∨
      (invalidateOne cache domain qtype).2.entries i = .zero := by
  rw [invalidateOne]
  split
  · exact Or.inl rfl
  · next idx _ =>
    by_cases hi : i = idx
    · subst hi
      exact Or.inr (Function.update_self ..)
    · exact Or.inl (Function.update_of_ne hi ..)

theorem answerCacheInvalidate_entries (cache : AnswerCache capacity) (domain : CStr)
    (i : Fin capacity) :
    (answerCacheInvalidate cache domain).2.entries i = cache.entries i ∨
      (answerCacheInvalidate cache domain).2.entries i = .zero := by
  rw [answerCacheInvalidate]
  split
  · exact Or.inl rfl
  · show (invalidateOne (invalidateOne cache domain 1).2 domain 28).2.entries i = _ ∨
      (invalidateOne (invalidateOne cache domain 1).2 domain 28).2.entries i = _
    rcases invalidateOne_entries (invalidateOne cache domain 1).2 domain 28 i with h | h
    · rw [h]
      exact invalidateOne_entries cache domain 1 i
    · exact Or.inr h

theorem answerCachePruneExpired_entries (cache : AnswerCache capacity) (now : UInt64)
    (i : Fin capacity) :
    (answerCachePruneExpired cache now).2.entries i = cache.entries i ∨
      (answerCachePruneExpired cache now).2.entries i = .zero := by
  rw [answerCachePruneExpired]
  dsimp only
  split
  · exact Or.inr rfl
  · exact Or.inl rfl

theorem answerCacheInit_zero {cache : AnswerCache capacity}
    (h : answerCacheInit capacity = some cache) (i : Fin capacity) : cache.entries i = .zero := by
  rw [answerCacheInit] at h
  split at h
  · cases h
    rfl
  · cases h

theorem AnswerCache.WellPlaced.of_empty {cache : AnswerCache capacity}
    (h : ∀ i, cache.entries i = .zero) : cache.WellPlaced := by
  have hno : ∀ i, ¬ (cache.entries i).valid = true := fun i hi => by rw [h i] at hi; cases hi
  exact ⟨fun i hi => absurd hi (hno i), fun i hi => absurd hi (hno i),
    fun i hi => absurd hi (hno i), fun i _ hi => absurd hi (hno i)⟩

/-- Slots that are only kept or wiped hold what they held. -/
theorem kept_of_wiped {cache cache' : AnswerCache capacity}
    (hw : ∀ i, cache'.entries i = cache.entries i ∨ cache'.entries i = .zero) {i : Fin capacity}
    (hi : (cache'.entries i).valid = true) : cache'.entries i = cache.entries i := by
  rcases hw i with heq | hzero
  · exact heq
  · rw [hzero] at hi
    cases hi

theorem AnswerCache.WellPlaced.of_wiped {cache cache' : AnswerCache capacity}
    (h : cache.WellPlaced)
    (hw : ∀ i, cache'.entries i = cache.entries i ∨ cache'.entries i = .zero) :
    cache'.WellPlaced := by
  refine h.of_keepsKeys fun i hi => ?_
  have heq := kept_of_wiped hw hi
  rw [heq] at hi ⊢
  exact ⟨hi, rfl, rfl, rfl⟩

/-! ## Inserting -/

theorem answerCacheInsert_refused {cache : AnswerCache capacity} {now : UInt64} {domain : CStr}
    {qtype : UInt16} {answer : Answer} (hacc : Acceptable domain answer = false) :
    answerCacheInsert cache now domain qtype answer = (false, cache) := by
  rw [answerCacheInsert]
  rw [hacc]
  rfl

/-- **After an insert** one slot of the window holds the record, and no other slot has
the key or anything it did not have. -/
theorem AnswerCache.WellPlaced.insert_slots {cache : AnswerCache capacity} (h : cache.WellPlaced)
    (now : UInt64) {domain : CStr} (qtype : UInt16) {answer : Answer}
    (hacc : Acceptable domain answer = true) :
    ∃ idx ∈ Nyet.window cache (hashKey domain qtype),
      (answerCacheInsert cache now domain qtype answer).2.entries idx =
        recordFor now domain qtype answer ∧
      ∀ j, j ≠ idx →
        ((answerCacheInsert cache now domain qtype answer).2.entries j).valid = true →
        (answerCacheInsert cache now domain qtype answer).2.entries j = cache.entries j ∧
          ¬ (cache.entries j).Holds domain qtype := by
  rcases answerCacheInsert_cases cache now domain qtype answer with
    ⟨hno, -⟩ | ⟨-, -, idx, hmem, hidx, hothers, hsole⟩
  · rw [hacc] at hno
    cases hno
  · refine ⟨idx, hmem, hidx, fun j hj hvalid => ?_⟩
    have hold : (answerCacheInsert cache now domain qtype answer).2.entries j = cache.entries j := by
      rcases hothers j hj with heq | hzero
      · exact heq
      · rw [hzero] at hvalid
        cases hvalid
    refine ⟨hold, ?_⟩
    rintro ⟨hv, hd, hq⟩
    rcases hsole with ⟨hvidx, hfor⟩ | hnone
    · -- the key stood in the slot already, so not in this one
      obtain ⟨-, hqidx, hdidx⟩ := AnswerEntry.isFor_iff.mp hfor
      exact hj (h.unique j idx hv hvidx (hd.trans hdidx.symm) (hq.trans hqidx.symm))
    · have hhash := h.hash j hv
      have hwin := h.window j hv
      rw [hd, hq] at hhash hwin
      have hno := hnone j hwin hj hvalid
      rw [hold, AnswerEntry.isFor_iff.mpr ⟨hhash, hq, hd⟩] at hno
      cases hno

theorem Acceptable.length {domain : CStr} {answer : Answer} (h : Acceptable domain answer = true) :
    domain.length ≤ answerCacheMaxDomainLen := by
  rw [Acceptable] at h
  simp only [Bool.and_eq_true, decide_eq_true_eq] at h
  exact h.1.1.2

theorem AnswerCache.WellPlaced.insert {cache : AnswerCache capacity} (h : cache.WellPlaced)
    (now : UInt64) (domain : CStr) (qtype : UInt16) (answer : Answer) :
    (answerCacheInsert cache now domain qtype answer).2.WellPlaced := by
  cases hacc : Acceptable domain answer with
  | false =>
    rw [answerCacheInsert_refused hacc]
    exact h
  | true =>
    obtain ⟨idx, hmem, hidx, hothers⟩ := h.insert_slots now qtype hacc
    generalize (answerCacheInsert cache now domain qtype answer).2 = cache' at hidx hothers ⊢
    constructor
    · intro i hi
      by_cases hii : i = idx
      · subst hii
        rw [hidx]
        rfl
      · obtain ⟨heq, -⟩ := hothers i hii hi
        rw [heq] at hi ⊢
        exact h.hash i hi
    · intro i hi
      by_cases hii : i = idx
      · subst hii
        rw [hidx]
        exact hmem
      · obtain ⟨heq, -⟩ := hothers i hii hi
        rw [heq] at hi ⊢
        exact h.window i hi
    · intro i hi
      by_cases hii : i = idx
      · subst hii
        rw [hidx]
        exact Acceptable.length hacc
      · obtain ⟨heq, -⟩ := hothers i hii hi
        rw [heq] at hi ⊢
        exact h.short i hi
    · -- the new record is the only one of its key
      have hsole : ∀ j, j ≠ idx → (cache'.entries j).valid = true →
          (cache'.entries j).domain = domain → (cache'.entries j).qtype = qtype → False := by
        intro j hj hv hd hq
        obtain ⟨heq, hno⟩ := hothers j hj hv
        rw [heq] at hv hd hq
        exact hno ⟨hv, hd, hq⟩
      intro i j hi hj hd hq
      by_cases hii : i = idx
      · by_contra hne
        have hji : j ≠ idx := fun hji => hne (hii.trans hji.symm)
        subst hii
        rw [hidx] at hd hq
        exact hsole j hji hj hd.symm hq.symm
      · by_cases hji : j = idx
        · subst hji
          rw [hidx] at hd hq
          exact (hsole i hii hi hd hq).elim
        · obtain ⟨heqi, -⟩ := hothers i hii hi
          obtain ⟨heqj, -⟩ := hothers j hji hj
          rw [heqi] at hi hd hq
          rw [heqj] at hj hd hq
          exact h.unique i j hi hj hd hq

/-! ## Looking up -/

/-- **After a lookup** all slots are as they were and none has the key, or the slot of
the key has been touched or dropped. -/
theorem AnswerCache.WellPlaced.lookup_slots {cache : AnswerCache capacity} (h : cache.WellPlaced)
    (now : UInt64) (domain : CStr) (qtype : UInt16) :
    ((answerCacheLookup cache now domain qtype).2.entries = cache.entries ∧
      ∀ i, ¬ (cache.entries i).Holds domain qtype) ∨
    ∃ idx e, (cache.entries idx).Holds domain qtype ∧
      (answerCacheLookup cache now domain qtype).2.entries =
        Function.update cache.entries idx e ∧
      (e.valid = true → e = { cache.entries idx with
        timestampNs := if (cache.entries idx).timestampNs < now then now
          else (cache.entries idx).timestampNs }) := by
  rcases answerCacheLookup_cases cache now domain qtype with
    ⟨hlong, heq⟩ | ⟨-, hprobe, heq⟩ | ⟨-, idx, hprobe, -, -, hentries⟩ |
    ⟨-, idx, hprobe, -, -, hentries⟩
  · refine Or.inl ⟨congrArg (fun r => r.2.entries) heq, fun i hi => ?_⟩
    -- no record has a domain that long
    have hshort := h.short i hi.1
    rw [hi.2.1] at hshort
    omega
  · refine Or.inl ⟨congrArg (fun r => r.2.entries) heq, fun i hi => ?_⟩
    rw [h.probe_eq hi] at hprobe
    cases hprobe
  · obtain ⟨-, hv, hq, hd⟩ := probe_some hprobe
    exact Or.inr ⟨idx, _, ⟨hv, hd, hq⟩, hentries, fun hvalid => by cases hvalid⟩
  · obtain ⟨-, hv, hq, hd⟩ := probe_some hprobe
    exact Or.inr ⟨idx, _, ⟨hv, hd, hq⟩, hentries, fun _ => rfl⟩

theorem AnswerCache.WellPlaced.lookup {cache : AnswerCache capacity} (h : cache.WellPlaced)
    (now : UInt64) (domain : CStr) (qtype : UInt16) :
    (answerCacheLookup cache now domain qtype).2.WellPlaced := by
  refine h.of_keepsKeys fun i hi => ?_
  rcases h.lookup_slots now domain qtype with ⟨hentries, -⟩ | ⟨idx, e, hholds, hentries, he⟩
  · rw [hentries] at hi ⊢
    exact ⟨hi, rfl, rfl, rfl⟩
  · rw [hentries] at hi ⊢
    by_cases hii : i = idx
    · subst hii
      rw [Function.update_self] at hi ⊢
      rw [he hi]
      exact ⟨hholds.1, rfl, rfl, rfl⟩
    · rw [Function.update_of_ne hii] at hi ⊢
      exact ⟨hi, rfl, rfl, rfl⟩

/-- What a lookup that returns true has found. -/
theorem answerCacheLookup_isSome {cache : AnswerCache capacity} {now : UInt64} {domain : CStr}
    {qtype : UInt16} (h : (answerCacheLookup cache now domain qtype).1.isSome = true) :
    ∃ idx, probe cache domain qtype = some idx ∧ entryExpired (cache.entries idx) now = false := by
  rcases answerCacheLookup_cases cache now domain qtype with
    ⟨-, heq⟩ | ⟨-, -, heq⟩ | ⟨-, idx, -, -, hres, -⟩ | ⟨-, idx, hprobe, hexp, -, -⟩
  · rw [heq] at h
    cases h
  · rw [heq] at h
    cases h
  · rw [hres] at h
    cases h
  · exact ⟨idx, hprobe, hexp⟩

/-- A stored record that has not expired is served. -/
theorem answerCacheLookup_serves {cache : AnswerCache capacity} (h : cache.WellPlaced)
    {now : UInt64} {domain : CStr} {qtype : UInt16} {idx : Fin capacity}
    (hidx : (cache.entries idx).Holds domain qtype)
    (hexp : entryExpired (cache.entries idx) now = false) :
    (answerCacheLookup cache now domain qtype).1 = some (copyOut (cache.entries idx)) := by
  have hprobe := h.probe_eq hidx
  have hshort := h.short idx hidx.1
  rw [hidx.2.1] at hshort
  rcases answerCacheLookup_cases cache now domain qtype with
    ⟨hlong, -⟩ | ⟨-, hnone, -⟩ | ⟨-, j, hj, hjexp, -⟩ | ⟨-, j, hj, -, hres, -⟩
  · omega
  · rw [hprobe] at hnone
    cases hnone
  · rw [hprobe] at hj
    cases hj
    rw [hexp] at hjexp
    cases hjexp
  · rw [hprobe] at hj
    cases hj
    exact hres

/-! ## Invalidating -/

/-- One round takes the key out. -/
theorem AnswerCache.WellPlaced.invalidateOne_gone {cache : AnswerCache capacity}
    (h : cache.WellPlaced) (domain : CStr) (qtype : UInt16) (i : Fin capacity) :
    ¬ ((invalidateOne cache domain qtype).2.entries i).Holds domain qtype := by
  intro hholds
  have hkept := kept_of_wiped (invalidateOne_entries cache domain qtype) hholds.1
  rw [hkept] at hholds
  have hprobe := h.probe_eq hholds
  rw [invalidateOne] at hkept
  rw [hprobe] at hkept
  dsimp only at hkept
  rw [Function.update_self] at hkept
  rw [← hkept] at hholds
  exact Bool.false_ne_true hholds.1

/-- **After an invalidation** neither key of the domain is stored. -/
theorem AnswerCache.WellPlaced.invalidate_gone {cache : AnswerCache capacity}
    (h : cache.WellPlaced) (domain : CStr) {qtype : UInt16} (hq : qtype = 1 ∨ qtype = 28)
    (i : Fin capacity) :
    ¬ ((answerCacheInvalidate cache domain).2.entries i).Holds domain qtype := by
  intro hholds
  have hshort := (h.of_wiped (answerCacheInvalidate_entries cache domain)).short i hholds.1
  rw [hholds.2.1] at hshort
  rw [answerCacheInvalidate] at hholds
  rw [if_neg (Nat.not_lt.mpr hshort)] at hholds
  change ((invalidateOne (invalidateOne cache domain 1).2 domain 28).2.entries i).Holds domain
    qtype at hholds
  have hfirst := h.of_wiped (invalidateOne_entries cache domain 1)
  rcases hq with rfl | rfl
  · have hkept := kept_of_wiped
      (invalidateOne_entries (invalidateOne cache domain 1).2 domain 28) hholds.1
    rw [hkept] at hholds
    exact h.invalidateOne_gone domain 1 i hholds
  · exact hfirst.invalidateOne_gone domain 28 i hholds

/-! ## Any call -/

theorem AnswerCache.WellPlaced.call {cache : AnswerCache capacity} (h : cache.WellPlaced)
    (c : AnswerCall) : (cache.call c).WellPlaced := by
  obtain ⟨now, op⟩ := c
  cases op with
  | insert domain qtype answer => exact h.insert now domain qtype answer
  | lookup domain qtype => exact h.lookup now domain qtype
  | invalidate domain => exact h.of_wiped (answerCacheInvalidate_entries cache domain)
  | clear => exact h.of_wiped fun _ => Or.inr rfl
  | prune => exact h.of_wiped (answerCachePruneExpired_entries cache now)

end

end Nyet
