import Nyet.Cache.SharedLookup
import Nyet.Lib.Parties

/-!
# Whether the count is right when lookups meet

A lookup that finds its record stale takes it out in two steps, and does not look at what the
first one replaced: two that are at the same record both count it off. `answer_cache_count_exact`
says that the count is right, whenever nobody holds the lock, in the runs in which every
exchange finds its slot valid, and in no others.
-/

namespace Nyet

section

variable {capacity : Nat}

/-- The number of slots with `valid != 0`. -/
def AnswerCache.validEntries (cache : AnswerCache capacity) : Nat :=
  (List.finRange capacity).countP fun i => (cache.entries i).valid

/-- The lookup has taken a record out and not counted it off yet. -/
def LookupPc.owes : LookupPc capacity → Bool
  | .decrement => true
  | _ => false

/-- The lookup is about to exchange a slot that somebody else has made invalid. -/
def LookupPc.late (cache : AnswerCache capacity) : LookupPc capacity → Bool
  | .exchange idx => !(cache.entries idx).valid
  | _ => false

/-- **The count is exact**: while nobody holds the lock it is the number of valid slots, and it is
never below zero. -/
def CountExact (s : SharedCache capacity) : Prop :=
  (s.Idle → s.cache.count = s.cache.validEntries) ∧ 0 ≤ s.cache.count

instance (s : SharedCache capacity) : Decidable (CountExact s) :=
  inferInstanceAs (Decidable (_ ∧ _))

/-- The condition: an exchange finds its slot valid. -/
def ExchangeFindsValid (s : SharedCache capacity) : CacheTurn → Prop
  | .move i => (s.readers[i]?).all (fun r => !r.pc.late s.cache) = true
  | _ => True

instance (s : SharedCache capacity) : ∀ t, Decidable (ExchangeFindsValid s t)
  | .enter _ _ _ => isTrue trivial
  | .move i => inferInstanceAs (Decidable ((s.readers[i]?).all _ = true))
  | .exclusive _ => isTrue trivial

/-- What is counted beyond the valid slots and those that are still to be counted off. -/
def SharedCache.surplus (s : SharedCache capacity) : Int :=
  s.cache.count - s.cache.validEntries - s.readers.countP (·.pc.owes)

/-! ## One operation -/

variable {cache : AnswerCache capacity}

theorem AnswerCache.validEntries_eq (cache : AnswerCache capacity) (now hash : UInt64)
    (qtype : UInt16) (domain : CStr) :
    (answerSlots now hash qtype domain).occupied cache.entries = cache.validEntries :=
  (answerSlots now hash qtype domain).occupied_eq_countP (List.nodup_finRange capacity)
    List.mem_finRange cache.entries

/-- A slot is written. -/
theorem AnswerCache.validEntries_update {cache cache' : AnswerCache capacity} {idx : Fin capacity}
    {e : AnswerEntry} (h : cache'.entries = Function.update cache.entries idx e) :
    (cache'.validEntries : Int) =
      cache.validEntries - (cache.entries idx).valid.toNat + e.valid.toNat := by
  have hvalue : ∀ b : Bool, (if b = true then (1 : Int) else 0) = b.toNat := by decide
  rw [← cache'.validEntries_eq 0 0 0 [], ← cache.validEntries_eq 0 0 0 [], h,
    Lib.SlotTests.occupied_update]
  show _ - (if (cache.entries idx).valid = true then (1 : Int) else 0) +
    (if e.valid = true then (1 : Int) else 0) = _
  rw [hvalue, hvalue]

theorem answerCacheInsert_exact (h : cache.count = cache.validEntries) (now : UInt64)
    (domain : CStr) (qtype : UInt16) (answer : Answer) :
    (answerCacheInsert cache now domain qtype answer).2.count =
      (answerCacheInsert cache now domain qtype answer).2.validEntries := by
  rw [answerCacheInsert]
  split
  · exact h
  · have hplace : (answerCachePlace cache now domain qtype answer).count -
        (answerSlots now (hashKey domain qtype) qtype domain).occupied
          (answerCachePlace cache now domain qtype answer).entries =
        cache.count -
          (answerSlots now (hashKey domain qtype) qtype domain).occupied cache.entries :=
      Lib.place_count (answerSlots now (hashKey domain qtype) qtype domain) AnswerEntry.zero rfl
        0xffffffffffffffff (slotAt_mem_window cache (hashKey domain qtype)) cache.entries
        cache.count rfl fun _ => rfl
    rw [cache.validEntries_eq, h, sub_self, sub_eq_zero] at hplace
    rw [← AnswerCache.validEntries_eq _ now (hashKey domain qtype) qtype domain]
    exact hplace

theorem invalidateOne_exact (h : cache.count = cache.validEntries) (domain : CStr)
    (qtype : UInt16) :
    (invalidateOne cache domain qtype).2.count =
      (invalidateOne cache domain qtype).2.validEntries := by
  rw [invalidateOne]
  split
  · exact h
  · next idx hprobe =>
    obtain ⟨-, hvalid, -⟩ := probe_some hprobe
    dsimp only
    rw [AnswerCache.validEntries_update rfl, hvalid, h]
    show (cache.validEntries : Int) - 1 = _ - 1 + 0
    omega

theorem answerCacheInvalidate_exact (h : cache.count = cache.validEntries) (domain : CStr) :
    (answerCacheInvalidate cache domain).2.count =
      (answerCacheInvalidate cache domain).2.validEntries := by
  rw [answerCacheInvalidate]
  split
  · exact h
  · exact invalidateOne_exact (invalidateOne_exact h domain 1) domain 28

theorem answerCacheClear_exact (cache : AnswerCache capacity) :
    (answerCacheClear cache).count = (answerCacheClear cache).validEntries := by
  have hzero : (answerCacheClear cache).validEntries = 0 :=
    List.countP_eq_zero.mpr fun i _ => Bool.false_ne_true
  rw [hzero]
  rfl

theorem answerCachePruneExpired_exact (h : cache.count = cache.validEntries) (now : UInt64) :
    (answerCachePruneExpired cache now).2.count =
      (answerCachePruneExpired cache now).2.validEntries := by
  rw [← AnswerCache.validEntries_eq _ 0 0 0 [], answerCachePruneExpired]
  dsimp only
  rw [Lib.SlotTests.occupied_wipe rfl (List.nodup_finRange capacity) List.mem_finRange,
    cache.validEntries_eq, h]
  intro i hi
  rw [Bool.and_eq_true] at hi
  exact hi.1

/-- **An operation that has the lock for itself** keeps the count right. -/
theorem call_exact (h : cache.count = cache.validEntries) {c : AnswerCall}
    (hc : c.op.isExclusive = true) : (cache.call c).count = (cache.call c).validEntries := by
  obtain ⟨now, op⟩ := c
  cases op with
  | insert domain qtype answer => exact answerCacheInsert_exact h now domain qtype answer
  | lookup domain qtype => cases hc
  | invalidate domain => exact answerCacheInvalidate_exact h domain
  | clear => exact answerCacheClear_exact cache
  | prune => exact answerCachePruneExpired_exact h now

/-- **A step of a lookup** counts off what it took out, and what it came too late for. -/
theorem advance_surplus (r : LookupCall capacity) (cache : AnswerCache capacity) :
    (r.advance cache).1.count - (r.advance cache).1.validEntries -
        (r.advance cache).2.owes.toNat =
      cache.count - cache.validEntries - r.pc.owes.toNat - (r.pc.late cache).toNat := by
  -- most steps have nothing to do with the count
  have hsame : ∀ cache' : AnswerCache capacity, ∀ pc' : LookupPc capacity,
      cache'.count = cache.count → cache'.validEntries = cache.validEntries → pc'.owes = false →
      r.pc.owes = false → r.pc.late cache = false →
      cache'.count - cache'.validEntries - (pc'.owes.toNat : Int) =
        cache.count - cache.validEntries - r.pc.owes.toNat - (r.pc.late cache).toNat := by
    intro cache' pc' hcount hvalid hnext howes hlate
    rw [hcount, hvalid, hnext, howes, hlate]
    exact (sub_zero _).symm
  obtain ⟨now, domain, qtype, pc⟩ := r
  cases pc with
  | load rest =>
    cases rest with
    | nil => exact hsame _ _ rfl rfl rfl rfl rfl
    | cons idx rest =>
      refine hsame _ _ rfl rfl ?_ rfl rfl
      show (if (cache.entries idx).valid = true then _ else _ : LookupPc capacity).owes = false
      split <;> rfl
  | compare idx rest =>
    refine hsame _ _ rfl rfl ?_ rfl rfl
    show (if _ then if _ then _ else _ else _ : LookupPc capacity).owes = false
    split
    · split <;> rfl
    · rfl
  | exchange idx =>
    show cache.count - ((AnswerCache.mk _ _ _ _ _ _ _ _).validEntries : Int) - 1 =
      cache.count - cache.validEntries - 0 - (!(cache.entries idx).valid).toNat
    rw [AnswerCache.validEntries_update rfl]
    cases hvalid : (cache.entries idx).valid with
    | true =>
      show cache.count - ((cache.validEntries : Int) - 1 + 0) - 1 = _ - 0 - 0
      omega
    | false =>
      show cache.count - ((cache.validEntries : Int) - 0 + 0) - 1 = _ - 0 - 1
      omega
  | decrement =>
    show cache.count - 1 - (cache.validEntries : Int) - 0 = _ - 1 - 0
    omega
  | copy idx => exact hsame _ _ rfl rfl rfl rfl rfl
  | stamp idx answer => exact hsame _ _ rfl rfl rfl rfl rfl
  | touch idx answer ts =>
    refine hsame _ _ ?_ ?_ rfl rfl rfl
    · show (if _ then _ else cache : AnswerCache capacity).count = cache.count
      split <;> rfl
    · show (if _ then _ else cache : AnswerCache capacity).validEntries = cache.validEntries
      split
      · refine List.countP_congr fun i _ => ?_
        show (Function.update cache.entries idx _ i).valid = true ↔ (cache.entries i).valid = true
        by_cases hi : i = idx
        · subst hi
          rw [Function.update_self]
        · rw [Function.update_of_ne hi]
      · rfl
  | countMiss => exact hsame _ _ rfl rfl rfl rfl rfl
  | countHit answer => exact hsame _ _ rfl rfl rfl rfl rfl
  | done answer => exact hsame _ _ rfl rfl rfl rfl rfl

/-! ## One turn -/

variable {s : SharedCache capacity}

/-- Nobody outside the lock has anything to count off. -/
theorem SharedCache.Idle.owes_eq_zero (h : s.Idle) : s.readers.countP (·.pc.owes) = 0 := by
  refine List.countP_eq_zero.mpr fun r hr howes => ?_
  have hfree := h r hr
  cases hpc : r.pc with
  | decrement =>
    rw [hpc] at hfree
    cases hfree
  | _ =>
    rw [hpc] at howes
    cases howes

theorem CountExact.of_surplus (h : s.surplus = 0) : CountExact s := by
  unfold SharedCache.surplus at h
  constructor
  · intro hidle
    rw [hidle.owes_eq_zero] at h
    omega
  · omega

theorem CountExact.surplus_of_idle (h : CountExact s) (hidle : s.Idle) : s.surplus = 0 := by
  have hcount := h.1 hidle
  unfold SharedCache.surplus
  rw [hidle.owes_eq_zero]
  omega

theorem surplus_enter (now : UInt64) (domain : CStr) (qtype : UInt16) :
    (s.step (.enter now domain qtype)).surplus = s.surplus := by
  rw [SharedCache.step]
  split
  · rfl
  · unfold SharedCache.surplus
    dsimp only
    rw [List.countP_append]
    show _ - ((_ + 0 : Nat) : Int) = _
    rw [Nat.add_zero]

/-- **A move of a lookup** takes one off what is counted too much, or on what is counted too
little, if its exchange is late. -/
theorem surplus_move {i : Nat} {r : LookupCall capacity} (h : s.readers[i]? = some r) :
    (s.step (.move i)).surplus = s.surplus - (r.pc.late s.cache).toNat := by
  have hadvance := advance_surplus r s.cache
  have howes := Lib.countP_set_add (p := fun r : LookupCall capacity => r.pc.owes)
    (y := { r with pc := (r.advance s.cache).2 }) h
  rw [step_move h]
  unfold SharedCache.surplus
  dsimp only at howes ⊢
  omega

theorem surplus_move_none {i : Nat} (h : s.readers[i]? = none) :
    (s.step (.move i)).surplus = s.surplus := by
  simp only [SharedCache.step, h]

/-- The operations that have the lock for themselves are counted right if the count is. -/
theorem surplus_exclusive (h : s.surplus = 0) (call : AnswerCall) :
    (s.step (.exclusive call)).surplus = 0 := by
  rw [SharedCache.step]
  split
  · next hfree =>
    have hexact := call_exact ((CountExact.of_surplus h).1 hfree.1) hfree.2
    unfold SharedCache.surplus
    dsimp only
    rw [hfree.1.owes_eq_zero, hexact]
    omega
  · exact h

/-- **A turn that meets the condition** keeps the count right, -/
theorem surplus_step (h : s.surplus = 0) {t : CacheTurn} (ht : ExchangeFindsValid s t) :
    (s.step t).surplus = 0 := by
  cases t with
  | enter now domain qtype => rw [surplus_enter, h]
  | move i =>
    cases hr : s.readers[i]? with
    | none => rw [surplus_move_none hr, h]
    | some r =>
      have hvalid : (!r.pc.late s.cache) = true := by
        rw [ExchangeFindsValid, hr] at ht
        exact ht
      rw [Bool.not_eq_true'] at hvalid
      rw [surplus_move hr, h, hvalid]
      rfl
  | exclusive call => exact surplus_exclusive h call

/-- and what is counted too little stays so, until the lock is free. -/
theorem surplus_neg_step (h : s.surplus < 0) (hexact : CountExact s) (t : CacheTurn) :
    (s.step t).surplus < 0 := by
  cases t with
  | enter now domain qtype => rwa [surplus_enter]
  | move i =>
    cases hr : s.readers[i]? with
    | none => rwa [surplus_move_none hr]
    | some r =>
      rw [surplus_move hr]
      omega
  | exclusive call =>
    rw [SharedCache.step]
    split
    · next hfree =>
      have hzero := hexact.surplus_of_idle hfree.1
      omega
    · exact h

/-! ## Runs -/

/-- What is counted too little shows when the lock is free again. -/
theorem not_exact_of_surplus_neg (h : s.surplus < 0) {turns : List CacheTurn}
    (hidle : (Lib.run SharedCache.step s turns).Idle) :
    ¬ Lib.EveryState SharedCache.step CountExact s turns := by
  induction turns generalizing s with
  | nil =>
    intro hexact
    have hzero := CountExact.surplus_of_idle hexact hidle
    omega
  | cons t turns ih =>
    rintro ⟨hexact, hrest⟩
    exact ih (surplus_neg_step h hexact t) hidle hrest

theorem everyStep_of_exact (h : s.surplus = 0) {turns : List CacheTurn}
    (hidle : (Lib.run SharedCache.step s turns).Idle)
    (hexact : Lib.EveryState SharedCache.step CountExact s turns) :
    Lib.EveryStep SharedCache.step ExchangeFindsValid s turns := by
  induction turns generalizing s with
  | nil => trivial
  | cons t turns ih =>
    have ht : ExchangeFindsValid s t := by
      cases t with
      | move i =>
        rw [ExchangeFindsValid]
        cases hr : s.readers[i]? with
        | none => rfl
        | some r =>
          show (!r.pc.late s.cache) = true
          cases hlate : r.pc.late s.cache with
          | false => rfl
          | true =>
            -- a lookup that takes an entry off the count a second time leaves it short, and nobody
            -- makes up for it
            have hneg : (s.step (.move i)).surplus < 0 := by
              rw [surplus_move hr, h, hlate]
              decide
            exact absurd hexact.2 (not_exact_of_surplus_neg hneg hidle)
      | _ => trivial
    exact ⟨ht, ih (surplus_step h ht) hidle hexact.2⟩

theorem surplus_start {cache : AnswerCache capacity}
    (hinit : answerCacheInit capacity = some cache) :
    (SharedCache.start cache).surplus = 0 := by
  rw [answerCacheInit] at hinit
  split at hinit
  · cases hinit
    show (0 : Int) - ((List.finRange capacity).countP fun _ => false : Nat) - 0 = 0
    rw [List.countP_false]
    rfl
  · cases hinit

/-- **The count of the answer cache with lookups that meet**, of any number in the lock at a time,
in every order of their steps. If every exchange finds its slot valid, the count is the number of
valid slots whenever nobody holds the lock, and never below zero. If it is so, and nobody holds
the lock in the end, every exchange has found its slot valid. -/
theorem answer_cache_count_exact {cache : AnswerCache capacity}
    (hinit : answerCacheInit capacity = some cache) (turns : List CacheTurn) :
    (Lib.EveryStep SharedCache.step ExchangeFindsValid (.start cache) turns →
      Lib.EveryState SharedCache.step CountExact (.start cache) turns) ∧
    ((Lib.run SharedCache.step (.start cache) turns).Idle →
      Lib.EveryState SharedCache.step CountExact (.start cache) turns →
      Lib.EveryStep SharedCache.step ExchangeFindsValid (.start cache) turns) :=
  ⟨Lib.EveryState.of_invariant
      (fun (s : SharedCache capacity) _ (hs : s.surplus = 0) ht => surplus_step hs ht)
      (fun _ hs => CountExact.of_surplus hs) (surplus_start hinit),
    everyStep_of_exact (surplus_start hinit)⟩

end

/-- An answer that expires after ten seconds. -/
def tenSeconds : CacheTurn := .exclusive ⟨0, .insert (cstr "a.com") 1 ⟨[[192, 0, 2, 1]], 1, 4, 10⟩⟩

/-- A lookup of it after twenty. -/
def lateLookup : CacheTurn := .enter 20000000000 (cstr "a.com") 1

/-- Two lookups of a stale record, the second when the first has taken it out. -/
theorem answer_cache_count_exact_one_by_one :
    ∃ cache : AnswerCache 64, answerCacheInit 64 = some cache ∧
      Lib.EveryState SharedCache.step CountExact (.start cache)
        [tenSeconds, lateLookup, lateLookup, .move 0, .move 0, .move 0, .move 1, .move 0,
          .move 0, .move 1] := by
  refine ⟨_, rfl, (answer_cache_count_exact rfl _).1 ?_⟩
  decide +kernel

/-- Two lookups that both find it stale before either takes it out: the count ends below zero. -/
theorem stale_record_counted_off_twice :
    ∃ cache : AnswerCache 64, answerCacheInit 64 = some cache ∧
      let s := Lib.run SharedCache.step (.start cache)
        [tenSeconds, lateLookup, lateLookup, .move 0, .move 1, .move 0, .move 1, .move 0, .move 1,
          .move 0, .move 1, .move 0, .move 1]
      s.Idle ∧ s.cache.validEntries = 0 ∧ s.cache.count = -1 := by
  refine ⟨_, rfl, ?_⟩
  decide +kernel

end Nyet
