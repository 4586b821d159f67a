import Nyet.Cache.AnswerCalls
import Nyet.Lib.Run

/-!
# How long an answer is served

`timestamp_ns` is the base of the expiry test and the recency mark of the
eviction at once, and every hit moves it. So an answer that keeps being asked for
outlives its TTL. `answerCache_fresh_iff` says exactly when that does not happen.

The calls alone determine, for each key, its last successful insert and when the
key was last inserted or looked up (`KeyHistory`); the invariant `Tracks` is that
a stored record agrees with that.
-/

namespace Nyet

/-- What the calls so far say about a key. -/
structure KeyHistory where
  insertedAt : UInt64
  ttlSeconds : UInt32
  touchedAt : UInt64

/-- The cache, the history of its keys and the time of the last call. -/
structure TracedCache (capacity : Nat) where
  cache : AnswerCache capacity
  history : AnswerKey → Option KeyHistory
  clock : UInt64

section

variable {capacity : Nat}

/-- The history after a call. -/
def historyStep (history : AnswerKey → Option KeyHistory) (c : AnswerCall) :
    AnswerKey → Option KeyHistory :=
  match c.op with
  | .insert domain qtype answer =>
    if Acceptable domain answer then
      Function.update history (domain, qtype) (some ⟨c.now, answer.ttlSeconds, c.now⟩)
    else history
  | .lookup domain qtype =>
    Function.update history (domain, qtype)
      ((history (domain, qtype)).map fun k => { k with touchedAt := c.now })
  | _ => history

/-- A fresh cache. -/
def TracedCache.init (cache : AnswerCache capacity) : TracedCache capacity :=
  ⟨cache, fun _ => none, 0⟩

/-- One call. -/
def TracedCache.step (s : TracedCache capacity) (c : AnswerCall) : TracedCache capacity :=
  ⟨s.cache.call c, historyStep s.history c, c.now⟩

/-- **Freshness of one call**: a lookup that returns true does so within the TTL of
the key's last successful insert. -/
def ServedFresh (s : TracedCache capacity) (c : AnswerCall) : Prop :=
  match c.op with
  | .lookup domain qtype =>
    (answerCacheLookup s.cache c.now domain qtype).1.isSome = true →
      ∃ k, s.history (domain, qtype) = some k ∧
        c.now.toNat ≤ k.insertedAt.toNat + k.ttlSeconds.toNat * 10 ^ 9
  | _ => True

/-- The condition: a lookup made after the TTL of the key's last insert has run
out finds no record of the key any more, or comes more than a TTL after the last
time the key was inserted or looked up. -/
def NotKeptAlive (s : TracedCache capacity) (c : AnswerCall) : Prop :=
  match c.op with
  | .lookup domain qtype =>
    ∀ k, s.history (domain, qtype) = some k →
      k.insertedAt.toNat + k.ttlSeconds.toNat * 10 ^ 9 < c.now.toNat →
      expiredAt k.touchedAt k.ttlSeconds c.now = true ∨
        ∀ idx, ¬ (s.cache.entries idx).Holds domain qtype
  | _ => True

/-! ## The history is right -/

/-- A stored record is that of the key's last insert, and its timestamp is the
last time the key was inserted or looked up. -/
structure Tracks (cache : AnswerCache capacity) (history : AnswerKey → Option KeyHistory)
    (clock : UInt64) : Prop where
  placed : cache.WellPlaced
  tracked : ∀ i, (cache.entries i).valid = true → ∃ k,
    history ((cache.entries i).domain, (cache.entries i).qtype) = some k ∧
      k.ttlSeconds = (cache.entries i).ttlSeconds ∧
      k.touchedAt = (cache.entries i).timestampNs
  past : ∀ i, (cache.entries i).valid = true → (cache.entries i).timestampNs ≤ clock

theorem Tracks.init (cache : AnswerCache capacity) (h : ∀ i, cache.entries i = .zero) :
    Tracks cache (fun _ => none) 0 := by
  have hno : ∀ i, ¬ (cache.entries i).valid = true := fun i hi => by rw [h i] at hi; cases hi
  exact ⟨.of_empty h, fun i hi => absurd hi (hno i), fun i hi => absurd hi (hno i)⟩

variable {cache : AnswerCache capacity} {history : AnswerKey → Option KeyHistory}
  {clock now : UInt64}

/-- Calls that only keep or wipe slots and say nothing about any key. -/
theorem Tracks.of_wiped (h : Tracks cache history clock) {cache' : AnswerCache capacity}
    (hw : ∀ i, cache'.entries i = cache.entries i ∨ cache'.entries i = .zero)
    (hnow : clock ≤ now) : Tracks cache' history now := by
  refine ⟨h.placed.of_wiped hw, fun i hi => ?_, fun i hi => ?_⟩
  · have heq := kept_of_wiped hw hi
    rw [heq] at hi ⊢
    exact h.tracked i hi
  · have heq := kept_of_wiped hw hi
    rw [heq] at hi ⊢
    exact UInt64.le_trans (h.past i hi) hnow

theorem Tracks.insert (h : Tracks cache history clock) (hnow : clock ≤ now) (domain : CStr)
    (qtype : UInt16) (answer : Answer) :
    Tracks (answerCacheInsert cache now domain qtype answer).2
      (historyStep history ⟨now, .insert domain qtype answer⟩) now := by
  have hplaced := h.placed.insert now domain qtype answer
  cases hacc : Acceptable domain answer with
  | false =>
    -- refused: nothing happens, and nothing is said about the key
    have hhistory : historyStep history ⟨now, .insert domain qtype answer⟩ = history := by
      simp [historyStep, hacc]
    rw [hhistory, answerCacheInsert_refused hacc]
    exact h.of_wiped (fun i => Or.inl rfl) hnow
  | true =>
    have hhistory : historyStep history ⟨now, .insert domain qtype answer⟩ =
        Function.update history (domain, qtype) (some ⟨now, answer.ttlSeconds, now⟩) := by
      simp [historyStep, hacc]
    rw [hhistory]
    obtain ⟨idx, -, hidx, hothers⟩ := h.placed.insert_slots now qtype hacc
    generalize (answerCacheInsert cache now domain qtype answer).2 = cache' at hidx hothers hplaced ⊢
    refine ⟨hplaced, fun i hi => ?_, fun i hi => ?_⟩
    · by_cases hii : i = idx
      · subst hii
        rw [hidx]
        exact ⟨_, Function.update_self .., rfl, rfl⟩
      · obtain ⟨heq, hno⟩ := hothers i hii hi
        rw [heq] at hi ⊢
        rw [Function.update_of_ne]
        · exact h.tracked i hi
        · intro hpair
          obtain ⟨hd, hq⟩ := Prod.mk.inj hpair
          exact hno ⟨hi, hd, hq⟩
    · by_cases hii : i = idx
      · subst hii
        rw [hidx]
        exact UInt64.le_refl now
      · obtain ⟨heq, -⟩ := hothers i hii hi
        rw [heq] at hi ⊢
        exact UInt64.le_trans (h.past i hi) hnow

theorem Tracks.lookup (h : Tracks cache history clock) (hnow : clock ≤ now) (domain : CStr)
    (qtype : UInt16) :
    Tracks (answerCacheLookup cache now domain qtype).2
      (historyStep history ⟨now, .lookup domain qtype⟩) now := by
  have hplaced := h.placed.lookup now domain qtype
  have hslots := h.placed.lookup_slots now domain qtype
  show Tracks _ (Function.update history (domain, qtype) _) now
  generalize (answerCacheLookup cache now domain qtype).2 = cache' at hplaced hslots ⊢
  rcases hslots with ⟨hentries, hno⟩ | ⟨idx, e, hholds, hentries, he⟩
  · have hkept := h.of_wiped (fun i => Or.inl (congrFun hentries i)) hnow
    refine ⟨hplaced, fun i hi => ?_, hkept.past⟩
    rw [Function.update_of_ne]
    · exact hkept.tracked i hi
    · intro hpair
      obtain ⟨hd, hq⟩ := Prod.mk.inj hpair
      rw [hentries] at hi hd hq
      exact hno i ⟨hi, hd, hq⟩
  · -- the clock has not gone back, so the touch is a move to `now`
    have htouch : (if (cache.entries idx).timestampNs < now then now
        else (cache.entries idx).timestampNs) = now := by
      have hle := UInt64.le_trans (h.past idx hholds.1) hnow
      split
      · rfl
      · next hnlt => exact UInt64.le_antisymm hle (UInt64.not_lt.mp hnlt)
    rw [htouch] at he
    refine ⟨hplaced, fun i hi => ?_, fun i hi => ?_⟩
    · rw [hentries] at hi ⊢
      by_cases hii : i = idx
      · subst hii
        obtain ⟨k, hk, httl, -⟩ := h.tracked i hholds.1
        rw [hholds.2.1, hholds.2.2] at hk
        rw [Function.update_self] at hi ⊢
        rw [he hi]
        show ∃ k, Function.update history (domain, qtype) _
          ((cache.entries i).domain, (cache.entries i).qtype) = some k ∧ _
        rw [hholds.2.1, hholds.2.2, Function.update_self, hk]
        exact ⟨_, rfl, httl, rfl⟩
      · rw [Function.update_of_ne hii] at hi ⊢
        rw [Function.update_of_ne]
        · exact h.tracked i hi
        · intro hpair
          obtain ⟨hd, hq⟩ := Prod.mk.inj hpair
          exact hii (h.placed.unique i idx hi hholds.1 (hd.trans hholds.2.1.symm)
            (hq.trans hholds.2.2.symm))
    · rw [hentries] at hi ⊢
      by_cases hii : i = idx
      · subst hii
        rw [Function.update_self] at hi ⊢
        rw [he hi]
        exact UInt64.le_refl now
      · rw [Function.update_of_ne hii] at hi ⊢
        exact UInt64.le_trans (h.past i hi) hnow

/-- **One call keeps the history right.** -/
theorem Tracks.step {s : TracedCache capacity} (h : Tracks s.cache s.history s.clock)
    (c : AnswerCall) (hnow : s.clock ≤ c.now) :
    Tracks (s.step c).cache (s.step c).history (s.step c).clock := by
  obtain ⟨now, op⟩ := c
  cases op with
  | insert domain qtype answer => exact h.insert hnow domain qtype answer
  | lookup domain qtype => exact h.lookup hnow domain qtype
  | invalidate domain => exact h.of_wiped (answerCacheInvalidate_entries s.cache domain) hnow
  | clear => exact h.of_wiped (fun _ => Or.inr rfl) hnow
  | prune => exact h.of_wiped (answerCachePruneExpired_entries s.cache now) hnow

/-- **One lookup**: it is fresh exactly when the record has not been kept alive. -/
theorem Tracks.servedFresh_iff {s : TracedCache capacity}
    (h : Tracks s.cache s.history s.clock) (c : AnswerCall) :
    ServedFresh s c ↔ NotKeptAlive s c := by
  obtain ⟨now, op⟩ := c
  cases op with
  | lookup domain qtype =>
    constructor
    · intro hfresh k hk hlate
      by_contra hno
      rw [not_or, not_forall] at hno
      obtain ⟨hexp, idx, hholds⟩ := hno
      rw [not_not] at hholds
      obtain ⟨k', hk', httl, htouch⟩ := h.tracked idx hholds.1
      rw [hholds.2.1, hholds.2.2, hk] at hk'
      cases hk'
      -- the entry is in its slot and alive, so the lookup serves it
      have halive : entryExpired (s.cache.entries idx) now = false := by
        rw [entryExpired]
        rw [← httl, ← htouch]
        exact Bool.not_eq_true _ ▸ hexp
      have hserved := answerCacheLookup_serves h.placed hholds halive
      obtain ⟨k', hk', hle⟩ := hfresh (by rw [hserved]; rfl)
      rw [hk] at hk'
      cases hk'
      exact absurd hlate (Nat.not_lt.mpr hle)
    · intro hcond hserved
      -- what was served is an entry that had not expired
      obtain ⟨idx, hprobe, hexp⟩ := answerCacheLookup_isSome hserved
      obtain ⟨-, hv, hq, hd⟩ := probe_some hprobe
      obtain ⟨k, hk, httl, htouch⟩ := h.tracked idx hv
      rw [hd, hq] at hk
      refine ⟨k, hk, ?_⟩
      by_contra hlate
      rcases hcond k hk (Nat.not_le.mp hlate) with hdead | hgone
      · rw [entryExpired] at hexp
        rw [← httl, ← htouch, hdead] at hexp
        cases hexp
      · exact hgone idx ⟨hv, hd, hq⟩
  | _ => exact Iff.rfl

/-- **When every answer is served within its TTL.** For calls at nondecreasing times
on a new cache: exactly when every lookup made after the TTL of the key's last
successful insert finds the record gone, or comes more than a TTL after the last
time the key was inserted or looked up. -/
theorem answerCache_fresh_iff {cache : AnswerCache capacity}
    (hinit : answerCacheInit capacity = some cache) (calls : List AnswerCall)
    (hsorted : calls.Pairwise fun a b => a.now ≤ b.now) :
    Lib.EveryStep TracedCache.step ServedFresh (.init cache) calls ↔
      Lib.EveryStep TracedCache.step NotKeptAlive (.init cache) calls := by
  have hclock : Lib.EveryStep TracedCache.step (fun s c => s.clock ≤ c.now) (.init cache) calls :=
    Lib.everyStep_clock TracedCache.clock AnswerCall.now (fun _ _ => rfl)
      (fun _ _ => UInt64.zero_le) hsorted
  have hinv : Tracks (TracedCache.init cache).cache (TracedCache.init cache).history
      (TracedCache.init cache).clock := Tracks.init cache (answerCacheInit_zero hinit)
  exact Lib.everyStep_congr (fun _ c hs hc => Tracks.step hs c hc)
    (fun _ c hs _ => Tracks.servedFresh_iff hs c) hinv hclock

end

/-- One A record with a TTL of ten seconds. -/
def tenSecondAnswer : Answer := ⟨[[192, 0, 2, 1]], 1, 4, 10⟩

/-- A record asked for once, within its TTL. -/
theorem answerCache_fresh_one_hit : ∃ cache, answerCacheInit 64 = some cache ∧
    Lib.EveryStep TracedCache.step ServedFresh (.init cache)
      [⟨0, .insert (cstr "a.com") 1 tenSecondAnswer⟩, ⟨8000000000, .lookup (cstr "a.com") 1⟩] := by
  refine ⟨_, rfl, (answerCache_fresh_iff rfl _ (by decide)).mpr ⟨trivial, ?_, trivial⟩⟩
  intro k hk hlate
  cases hk
  exact absurd hlate (by decide)

/-- A TTL of ten seconds, hits after eight and sixteen: the second one is served. -/
theorem answerCache_serves_past_ttl : ∃ cache, answerCacheInit 64 = some cache ∧
    ¬ Lib.EveryStep TracedCache.step ServedFresh (.init cache)
      [⟨0, .insert (cstr "a.com") 1 tenSecondAnswer⟩, ⟨8000000000, .lookup (cstr "a.com") 1⟩,
        ⟨16000000000, .lookup (cstr "a.com") 1⟩] := by
  refine ⟨_, rfl, fun hfresh => ?_⟩
  obtain ⟨-, -, hsecond, -⟩ := hfresh
  obtain ⟨k, hk, hle⟩ := hsecond (by decide)
  cases hk
  exact absurd hle (by decide)

end Nyet
