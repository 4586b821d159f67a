import Mathlib

/-!
# Inserting into a table of slots

A table is a function from slot indices to entries. An insert scans some of the
slots in order: it notes the first free one, wipes every expired one, remembers
the oldest entry it has met, and stops at an unexpired entry of the key, which it
refreshes. Without one, the record goes to the noted slot or, if all of them are
taken, replaces the oldest entry. `place_cases` says where the key is afterwards,
`place_live` what happens to the others, and `place_count` that the count is kept.
-/

namespace Nyet.Lib

/-- What a scan asks about an entry. -/
structure SlotTests (ε τ : Type*) where
  valid : ε → Bool
  expired : ε → Bool
  holds : ε → Bool
  stamp : ε → τ

/-- An entry that counts: valid and not expired. -/
structure SlotTests.Live {ε τ : Type*} (T : SlotTests ε τ) (e : ε) : Prop where
  valid : T.valid e = true
  unexpired : T.expired e = false

/-- The local variables of a scan. -/
structure SlotScan (ι ε τ : Type*) where
  entries : ι → ε
  count : Int
  target : Option ι
  oldestTime : τ
  oldestIdx : ι

/-- How a record got its slot. -/
inductive Placement where
  | refreshed
  | fresh
  | evicting
  deriving DecidableEq, Repr

/-- The table after an insert. -/
structure Placed (ι ε : Type*) where
  entries : ι → ε
  idx : ι
  count : Int
  placement : Placement

section

variable {ι ε τ : Type*}

/-- Note a free slot, unless one has been noted before. -/
def SlotScan.offer (s : SlotScan ι ε τ) (idx : ι) : SlotScan ι ε τ :=
  match s.target with
  | none => { s with target := some idx }
  | some _ => s

theorem SlotScan.offer_entries (s : SlotScan ι ε τ) (idx : ι) :
    (s.offer idx).entries = s.entries := by
  rw [SlotScan.offer]
  cases s.target <;> rfl

theorem SlotScan.offer_oldestIdx (s : SlotScan ι ε τ) (idx : ι) :
    (s.offer idx).oldestIdx = s.oldestIdx := by
  rw [SlotScan.offer]
  cases s.target <;> rfl

theorem SlotScan.offer_target (s : SlotScan ι ε τ) (idx : ι) :
    (s.offer idx).target = s.target ∨ (s.offer idx).target = some idx := by
  rw [SlotScan.offer]
  cases h : s.target with
  | none => exact Or.inr rfl
  | some t => exact Or.inl h

variable [DecidableEq ι] [LT τ] [DecidableLT τ]

/-- A round that does not find the key. -/
def SlotScan.round (T : SlotTests ε τ) (zero : ε) (s : SlotScan ι ε τ) (idx : ι) :
    SlotScan ι ε τ :=
  let entry := s.entries idx
  if !T.valid entry then s.offer idx
  else if T.expired entry then
    SlotScan.offer { s with
      count := s.count - 1
      entries := Function.update s.entries idx zero } idx
  else if T.stamp entry < s.oldestTime then
    { s with oldestTime := T.stamp entry, oldestIdx := idx }
  else s

/-- The scan. It stops at an unexpired entry of the key. -/
def SlotScan.scan (T : SlotTests ε τ) (zero : ε) :
    List ι → SlotScan ι ε τ → SlotScan ι ε τ × Option ι
  | [], s => (s, none)
  | idx :: rest, s =>
    let entry := s.entries idx
    if T.valid entry && !T.expired entry && T.holds entry then (s, some idx)
    else scan T zero rest (s.round T zero idx)

/-- The insert: `start` and `latest` are what `oldestIdx` and `oldestTime` start
from, `refresh` is what happens to an entry of the key. -/
def place (T : SlotTests ε τ) (zero : ε) (latest : τ) (start : ι) (idxs : List ι)
    (entries : ι → ε) (count : Int) (record : ε) (refresh : ε → ε) : Placed ι ε :=
  match SlotScan.scan T zero idxs ⟨entries, count, none, latest, start⟩ with
  | (s, some idx) =>
    ⟨Function.update s.entries idx (refresh (s.entries idx)), idx, s.count, .refreshed⟩
  | (s, none) =>
    match s.target with
    | some idx => ⟨Function.update s.entries idx record, idx, s.count + 1, .fresh⟩
    | none =>
      ⟨Function.update s.entries s.oldestIdx record, s.oldestIdx, s.count, .evicting⟩

/-! ## One round -/

variable (T : SlotTests ε τ) (zero : ε)

/-- A round wipes its own slot if that has expired, and touches no other. -/
theorem SlotScan.round_entries (s : SlotScan ι ε τ) (idx j : ι) :
    (s.round T zero idx).entries j =
      if j = idx ∧ T.valid (s.entries idx) = true ∧ T.expired (s.entries idx) = true then zero
      else s.entries j := by
  rw [SlotScan.round]
  cases hvalid : T.valid (s.entries idx) with
  | false => simp [SlotScan.offer_entries]
  | true =>
    cases hexp : T.expired (s.entries idx) with
    | true =>
      simp only [SlotScan.offer_entries, Bool.not_true, Bool.false_eq_true, if_false, if_true,
        Function.update_apply, and_true]
    | false =>
      simp only [Bool.not_true, Bool.false_eq_true, if_false, and_false]
      split <;> rfl

theorem SlotScan.round_target (s : SlotScan ι ε τ) (idx : ι) :
    (s.round T zero idx).target = s.target ∨ (s.round T zero idx).target = some idx := by
  simp only [SlotScan.round]
  split
  · exact s.offer_target idx
  · split
    · exact SlotScan.offer_target _ idx
    · split <;> exact Or.inl rfl

theorem SlotScan.round_oldestIdx (s : SlotScan ι ε τ) (idx : ι) :
    (s.round T zero idx).oldestIdx = s.oldestIdx ∨ (s.round T zero idx).oldestIdx = idx := by
  simp only [SlotScan.round]
  split
  · exact Or.inl (s.offer_oldestIdx idx)
  · split
    · exact Or.inl (SlotScan.offer_oldestIdx _ idx)
    · split
      · exact Or.inr rfl
      · exact Or.inl rfl

/-! ## The scan -/

variable {T zero}

section

variable {idxs : List ι} {s s' : SlotScan ι ε τ} {m : Option ι}

/-- The scan keeps a slot as it is or wipes it, -/
theorem SlotScan.scan_entries (h : SlotScan.scan T zero idxs s = (s', m)) (j : ι) :
    s'.entries j = s.entries j ∨ s'.entries j = zero := by
  induction idxs generalizing s with
  | nil =>
    cases h
    exact Or.inl rfl
  | cons idx rest ih =>
    rw [SlotScan.scan] at h
    split at h
    · cases h
      exact Or.inl rfl
    · have hround := s.round_entries T zero idx j
      rcases ih h with heq | hzero
      · rw [heq, hround]
        split
        · exact Or.inr rfl
        · exact Or.inl rfl
      · exact Or.inr hzero

/-- and leaves those it does not go over. -/
theorem SlotScan.scan_outside (h : SlotScan.scan T zero idxs s = (s', m)) {j : ι}
    (hj : j ∉ idxs) : s'.entries j = s.entries j := by
  induction idxs generalizing s with
  | nil =>
    cases h
    rfl
  | cons idx rest ih =>
    obtain ⟨hne, hrest⟩ := not_or.mp (List.mem_cons.not.mp hj)
    rw [SlotScan.scan] at h
    split at h
    · cases h
      rfl
    · rw [ih h hrest, SlotScan.round_entries]
      exact if_neg fun hwipe => hne hwipe.1

/-- The scan stops only at an entry of the key. -/
theorem SlotScan.scan_some {idx : ι} (h : SlotScan.scan T zero idxs s = (s', some idx)) :
    idx ∈ idxs ∧ T.valid (s'.entries idx) = true ∧ T.holds (s'.entries idx) = true := by
  induction idxs generalizing s with
  | nil => cases h
  | cons i rest ih =>
    rw [SlotScan.scan] at h
    split at h
    · next hmatch =>
      cases h
      rw [Bool.and_eq_true, Bool.and_eq_true] at hmatch
      exact ⟨List.mem_cons_self, hmatch.1.1, hmatch.2⟩
    · obtain ⟨hmem, hrest⟩ := ih h
      exact ⟨List.mem_cons_of_mem _ hmem, hrest⟩

/-- A slot that did not end the scan holds no entry of the key afterwards. -/
theorem SlotScan.scan_passed (hzero : T.valid zero = false) {i : ι}
    (hno : ¬ (T.valid (s.entries i) && !T.expired (s.entries i) && T.holds (s.entries i)) = true)
    (h : SlotScan.scan T zero idxs (s.round T zero i) = (s', m))
    (hvalid : T.valid (s'.entries i) = true) : T.holds (s'.entries i) = false := by
  -- valid afterwards, so not wiped, so not a match
  rcases SlotScan.scan_entries h i with heq | hwiped
  · rw [heq, SlotScan.round_entries] at hvalid ⊢
    split at hvalid
    · rw [hzero] at hvalid
      cases hvalid
    · next hkeep =>
      rw [if_neg hkeep]
      simp only [true_and, not_and, Bool.not_eq_true] at hkeep
      simpa [hvalid, hkeep hvalid] using hno
  · rw [hwiped, hzero] at hvalid
    cases hvalid

/-- A scan to the end has left no entry of the key in the slots it went over. -/
theorem SlotScan.scan_none (hzero : T.valid zero = false)
    (h : SlotScan.scan T zero idxs s = (s', none)) {j : ι} (hj : j ∈ idxs)
    (hvalid : T.valid (s'.entries j) = true) : T.holds (s'.entries j) = false := by
  induction idxs generalizing s with
  | nil => cases hj
  | cons i rest ih =>
    rw [SlotScan.scan] at h
    split at h
    · cases h
    · next hno =>
      rcases List.mem_cons.mp hj with rfl | hj
      · exact SlotScan.scan_passed hzero hno h hvalid
      · exact ih h hj

/-- Before the entry of the key it has left none either. -/
theorem SlotScan.scan_some_first (hzero : T.valid zero = false) {idx : ι}
    (h : SlotScan.scan T zero idxs s = (s', some idx)) :
    ∃ pre post, idxs = pre ++ idx :: post ∧
      ∀ j ∈ pre, T.valid (s'.entries j) = true → T.holds (s'.entries j) = false := by
  induction idxs generalizing s with
  | nil => cases h
  | cons i rest ih =>
    rw [SlotScan.scan] at h
    split at h
    · cases h
      exact ⟨[], rest, rfl, List.forall_mem_nil _⟩
    · next hno =>
      obtain ⟨pre, post, rfl, hpre⟩ := ih h
      refine ⟨i :: pre, post, rfl, fun j hj hvalid => ?_⟩
      rcases List.mem_cons.mp hj with rfl | hj
      · exact SlotScan.scan_passed hzero hno h hvalid
      · exact hpre j hj hvalid

/-- What the scan settles on is one of the slots it went over. -/
theorem SlotScan.scan_target_mem (h : SlotScan.scan T zero idxs s = (s', m)) :
    (∀ t, s'.target = some t → t ∈ idxs ∨ s.target = some t) ∧
      (s'.oldestIdx ∈ idxs ∨ s'.oldestIdx = s.oldestIdx) := by
  induction idxs generalizing s with
  | nil =>
    cases h
    exact ⟨fun t ht => Or.inr ht, Or.inr rfl⟩
  | cons i rest ih =>
    rw [SlotScan.scan] at h
    split at h
    · cases h
      exact ⟨fun t ht => Or.inr ht, Or.inr rfl⟩
    · -- noted later on, or in this round, or before
      obtain ⟨htarget, holdest⟩ := ih h
      constructor
      · intro t ht
        rcases htarget t ht with hmem | heq
        · exact Or.inl (List.mem_cons_of_mem _ hmem)
        · rcases s.round_target T zero i with hsame | hi
          · exact Or.inr (hsame ▸ heq)
          · rw [heq] at hi
            cases hi
            exact Or.inl List.mem_cons_self
      · rcases holdest with hmem | heq
        · exact Or.inl (List.mem_cons_of_mem _ hmem)
        · rcases s.round_oldestIdx T zero i with hsame | hi
          · exact Or.inr (heq.trans hsame)
          · rw [heq, hi]
            exact Or.inl List.mem_cons_self

/-- After a scan to the end, a record put anywhere: every other slot is kept or
wiped, and none of those gone over holds the key. -/
theorem SlotScan.record_cases (hzero : T.valid zero = false)
    (h : SlotScan.scan T zero idxs s = (s', none)) (t : ι) (record : ε) :
    (∀ j, j ≠ t → Function.update s'.entries t record j = s.entries j ∨
      Function.update s'.entries t record j = zero) ∧
    ∀ j ∈ idxs, j ≠ t → T.valid (Function.update s'.entries t record j) = true →
      T.holds (Function.update s'.entries t record j) = false := by
  refine ⟨fun j hj => ?_, fun j hmem hj hvalid => ?_⟩
  · rw [Function.update_of_ne hj]
    exact SlotScan.scan_entries h j
  · rw [Function.update_of_ne hj] at hvalid ⊢
    exact SlotScan.scan_none hzero h hmem hvalid

end

/-! ## Entries that count -/

section

variable {idxs : List ι} {s s' : SlotScan ι ε τ} {m : Option ι}

/-- A round leaves them alone, -/
theorem SlotScan.round_live {i j : ι} (h : T.Live (s.entries j)) :
    (s.round T zero i).entries j = s.entries j := by
  rw [SlotScan.round_entries]
  refine if_neg ?_
  rintro ⟨rfl, -, hexp⟩
  exact Bool.false_ne_true (h.unexpired.symm.trans hexp)

/-- and so does a scan. -/
theorem SlotScan.scan_live (h : SlotScan.scan T zero idxs s = (s', m)) {j : ι}
    (hj : T.Live (s.entries j)) : s'.entries j = s.entries j := by
  induction idxs generalizing s with
  | nil =>
    cases h
    rfl
  | cons i rest ih =>
    rw [SlotScan.scan] at h
    split at h
    · cases h
      rfl
    · have hround : (s.round T zero i).entries j = s.entries j := SlotScan.round_live hj
      exact (ih h (hround ▸ hj)).trans hround

/-- The scan stops at an entry that counts, -/
theorem SlotScan.scan_some_live {idx : ι} (h : SlotScan.scan T zero idxs s = (s', some idx)) :
    T.Live (s'.entries idx) := by
  induction idxs generalizing s with
  | nil => cases h
  | cons i rest ih =>
    rw [SlotScan.scan] at h
    split at h
    · next hmatch =>
      cases h
      rw [Bool.and_eq_true, Bool.and_eq_true, Bool.not_eq_true'] at hmatch
      exact ⟨hmatch.1.1, hmatch.1.2⟩
    · exact ih h

/-- and does stop when there is one of the key. -/
theorem SlotScan.scan_meets {j : ι} (hj : j ∈ idxs) (hlive : T.Live (s.entries j))
    (hholds : T.holds (s.entries j) = true) : (SlotScan.scan T zero idxs s).2.isSome = true := by
  induction idxs generalizing s with
  | nil => cases hj
  | cons i rest ih =>
    rw [SlotScan.scan]
    split
    · rfl
    · next hno =>
      rcases List.mem_cons.mp hj with rfl | hj
      · rw [hlive.valid, hlive.unexpired, hholds] at hno
        exact absurd rfl hno
      · have hround : (s.round T zero i).entries j = s.entries j := SlotScan.round_live hlive
        exact ih hj (hround ▸ hlive) (hround ▸ hholds)

/-- A scan to the end wipes every expired entry it goes over. -/
theorem SlotScan.scan_wipes (h : SlotScan.scan T zero idxs s = (s', none)) {j : ι}
    (hj : j ∈ idxs) (hvalid : T.valid (s.entries j) = true)
    (hexp : T.expired (s.entries j) = true) : s'.entries j = zero := by
  induction idxs generalizing s with
  | nil => cases hj
  | cons i rest ih =>
    rw [SlotScan.scan] at h
    split at h
    · cases h
    · by_cases hji : j = i
      · have hround : (s.round T zero i).entries j = zero := by
          rw [SlotScan.round_entries]
          exact if_pos ⟨hji, hji ▸ hvalid, hji ▸ hexp⟩
        rcases SlotScan.scan_entries h j with heq | hwiped
        · exact heq.trans hround
        · exact hwiped
      · have hround : (s.round T zero i).entries j = s.entries j := by
          rw [SlotScan.round_entries]
          exact if_neg fun hwipe => hji hwipe.1
        have hrest : j ∈ rest := (List.mem_cons.mp hj).resolve_left hji
        exact ih h hrest (hround ▸ hvalid) (hround ▸ hexp)

/-- A round notes a slot unless an entry in it counts or one was noted before. -/
theorem SlotScan.round_target_none {i : ι} (h : (s.round T zero i).target = none) :
    s.target = none ∧ T.Live (s.entries i) := by
  -- a slot once noted stays noted
  have hoffer : ∀ q : SlotScan ι ε τ, (q.offer i).target ≠ none := by
    intro q
    rw [SlotScan.offer]
    cases hq : q.target with
    | none => exact Option.some_ne_none i
    | some t =>
      show q.target ≠ none
      rw [hq]
      exact Option.some_ne_none t
  unfold SlotScan.round at h
  dsimp only at h
  split at h
  · exact absurd h (hoffer s)
  · next hvalid =>
    split at h
    · exact absurd h (hoffer _)
    · next hexp =>
      have hlive : T.Live (s.entries i) :=
        ⟨by simpa using hvalid, by simpa using hexp⟩
      split at h
      · exact ⟨h, hlive⟩
      · exact ⟨h, hlive⟩

theorem SlotScan.round_target_some {i t : ι} (h : (s.round T zero i).target = some t) :
    s.target = some t ∨ ¬ T.Live (s.entries t) := by
  rcases s.round_target T zero i with hsame | hi
  · exact Or.inl (hsame ▸ h)
  · rw [h] at hi
    cases hi
    by_cases hlive : T.Live (s.entries i)
    · have hsame : (s.round T zero i).target = s.target := by
        rw [SlotScan.round]
        simp only [hlive.valid, hlive.unexpired, Bool.not_true, Bool.false_eq_true, if_false]
        split <;> rfl
      exact Or.inl (hsame ▸ h)
    · exact Or.inr hlive

/-- What is noted is a slot without an entry that counts. -/
theorem SlotScan.scan_target_free (h : SlotScan.scan T zero idxs s = (s', m)) {t : ι}
    (ht : s'.target = some t) : s.target = some t ∨ ¬ T.Live (s.entries t) := by
  induction idxs generalizing s with
  | nil =>
    cases h
    exact Or.inl ht
  | cons i rest ih =>
    rw [SlotScan.scan] at h
    split at h
    · cases h
      exact Or.inl ht
    · rcases ih h with hround | hfree
      · exact SlotScan.round_target_some hround
      · refine Or.inr fun hlive => hfree ?_
        rw [SlotScan.round_live hlive]
        exact hlive

/-- What is noted holds no valid entry any more. -/
theorem SlotScan.scan_target_invalid (hzero : T.valid zero = false)
    (h : SlotScan.scan T zero idxs s = (s', m)) {t : ι} (ht : s'.target = some t) :
    s.target = some t ∨ T.valid (s'.entries t) = false := by
  induction idxs generalizing s with
  | nil =>
    cases h
    exact Or.inl ht
  | cons i rest ih =>
    rw [SlotScan.scan] at h
    split at h
    · cases h
      exact Or.inl ht
    · rcases ih h with hround | hinvalid
      · rcases SlotScan.round_target_some hround with hold | hfree
        · exact Or.inl hold
        · rcases s.round_target T zero i with hsame | hi
          · exact Or.inl (hsame ▸ hround)
          · rw [hround] at hi
            cases hi
            right
            rcases SlotScan.scan_entries h t with heq | hwiped
            · -- the slot was free, or the round has wiped it
              rw [heq, SlotScan.round_entries]
              split
              · exact hzero
              · next hkeep =>
                by_contra hvalid
                rw [Bool.not_eq_false] at hvalid
                refine hfree ⟨hvalid, ?_⟩
                rw [← Bool.not_eq_true]
                exact fun hexp => hkeep ⟨rfl, hvalid, hexp⟩
            · rw [hwiped]
              exact hzero
      · exact Or.inr hinvalid

/-- A scan that has noted nothing to the end has met only entries of other keys that
count, and has changed none. -/
theorem SlotScan.scan_full (h : SlotScan.scan T zero idxs s = (s', none))
    (ht : s'.target = none) :
    s.target = none ∧ s'.entries = s.entries ∧
      ∀ j ∈ idxs, T.Live (s.entries j) ∧ T.holds (s.entries j) = false := by
  induction idxs generalizing s with
  | nil =>
    cases h
    exact ⟨ht, rfl, List.forall_mem_nil _⟩
  | cons i rest ih =>
    rw [SlotScan.scan] at h
    split at h
    · cases h
    · next hno =>
      obtain ⟨hround, hentries, hall⟩ := ih h
      obtain ⟨hs, hlive⟩ := SlotScan.round_target_none hround
      -- a round wipes only what has expired, and this entry counts
      have hsame : (s.round T zero i).entries = s.entries := by
        funext j
        rw [SlotScan.round_entries]
        refine if_neg ?_
        rintro ⟨-, -, hexp⟩
        exact Bool.false_ne_true (hlive.unexpired.symm.trans hexp)
      rw [hsame] at hentries hall
      refine ⟨hs, hentries, fun j hj => ?_⟩
      rcases List.mem_cons.mp hj with rfl | hj
      · refine ⟨hlive, ?_⟩
        simpa [hlive.valid, hlive.unexpired] using hno
      · exact hall j hj

/-- Such a scan ends at the oldest entry, when no stamp is later than `oldestTime` was
to begin with. -/
theorem SlotScan.scan_oldest {ω : Type*} [LinearOrder ω] {rank : τ → ω}
    (hrank : ∀ a b : τ, a < b ↔ rank a < rank b)
    (h : SlotScan.scan T zero idxs s = (s', none)) (ht : s'.target = none) :
    (∀ j ∈ idxs, rank s'.oldestTime ≤ rank (T.stamp (s.entries j))) ∧
      rank s'.oldestTime ≤ rank s.oldestTime ∧
      (s'.oldestTime = s.oldestTime ∧ s'.oldestIdx = s.oldestIdx ∨
        s'.oldestTime = T.stamp (s.entries s'.oldestIdx)) := by
  induction idxs generalizing s with
  | nil =>
    cases h
    exact ⟨List.forall_mem_nil _, le_refl _, Or.inl ⟨rfl, rfl⟩⟩
  | cons i rest ih =>
    obtain ⟨-, -, hall⟩ := SlotScan.scan_full h ht
    obtain ⟨hlive, -⟩ := hall i List.mem_cons_self
    rw [SlotScan.scan] at h
    split at h
    · cases h
    · -- the round compares the stamp of its slot and changes no entry
      have hround : s.round T zero i = if T.stamp (s.entries i) < s.oldestTime then
          { s with oldestTime := T.stamp (s.entries i), oldestIdx := i } else s := by
        rw [SlotScan.round]
        simp only [hlive.valid, hlive.unexpired, Bool.not_true, Bool.false_eq_true, if_false]
      have hentries : (s.round T zero i).entries = s.entries := by
        rw [hround]
        split <;> rfl
      have hbound : rank (s.round T zero i).oldestTime ≤ rank (T.stamp (s.entries i)) ∧
          rank (s.round T zero i).oldestTime ≤ rank s.oldestTime ∧
          (s.round T zero i = s ∨
            (s.round T zero i).oldestTime =
              T.stamp (s.entries (s.round T zero i).oldestIdx)) := by
        rw [hround]
        split
        · next hlt => exact ⟨le_refl _, le_of_lt ((hrank _ _).mp hlt), Or.inr rfl⟩
        · next hle => exact ⟨not_lt.mp fun hlt => hle ((hrank _ _).mpr hlt), le_refl _, Or.inl rfl⟩
      obtain ⟨hrest, hstart, hend⟩ := ih h
      rw [hentries] at hrest hend
      refine ⟨fun j hj => ?_, hstart.trans hbound.2.1, ?_⟩
      · rcases List.mem_cons.mp hj with rfl | hj
        · exact hstart.trans hbound.1
        · exact hrest j hj
      · rcases hend with ⟨htime, hidx⟩ | hstamp
        · rcases hbound.2.2 with hsame | hstamp
          · rw [hsame] at htime hidx
            exact Or.inl ⟨htime, hidx⟩
          · rw [htime, hidx]
            exact Or.inr hstamp
        · exact Or.inr hstamp

end

/-! ## The count -/

section

variable [Fintype ι]

/-- How many slots hold a valid entry. -/
def SlotTests.occupied (T : SlotTests ε τ) (entries : ι → ε) : Int :=
  ∑ i, if T.valid (entries i) = true then 1 else 0

omit [LT τ] [DecidableLT τ] in
theorem SlotTests.occupied_update (entries : ι → ε) (i : ι) (e : ε) :
    T.occupied (Function.update entries i e) =
      T.occupied entries - (if T.valid (entries i) = true then 1 else 0) +
        (if T.valid e = true then 1 else 0) := by
  unfold SlotTests.occupied
  have hcomp : (fun j => if T.valid (Function.update entries i e j) = true then (1 : Int) else 0) =
      Function.update (fun j => if T.valid (entries j) = true then 1 else 0) i
        (if T.valid e = true then 1 else 0) := by
    funext j
    by_cases hj : j = i
    · subst hj
      simp only [Function.update_self]
    · simp only [Function.update_of_ne hj]
  rw [hcomp, Finset.sum_update_of_mem (Finset.mem_univ i), ← Finset.erase_eq,
    ← Finset.sum_erase_add _ _ (Finset.mem_univ i)]
  omega

omit [DecidableEq ι] in
/-- Counting along a list of all slots. -/
theorem sum_eq_countP {l : List ι} (hnodup : l.Nodup) (hall : ∀ i, i ∈ l) (p : ι → Bool) :
    (∑ i, if p i = true then (1 : Int) else 0) = l.countP p := by
  classical
  have huniv : l.toFinset = Finset.univ := Finset.eq_univ_iff_forall.mpr fun i =>
    List.mem_toFinset.mpr (hall i)
  rw [Finset.sum_boole, ← huniv, hnodup.card_eq_countP]
  simp only [Bool.decide_eq_true]

omit [DecidableEq ι] [LT τ] [DecidableLT τ] in
theorem SlotTests.occupied_eq_countP {l : List ι} (hnodup : l.Nodup) (hall : ∀ i, i ∈ l)
    (entries : ι → ε) : T.occupied entries = l.countP fun i => T.valid (entries i) :=
  sum_eq_countP hnodup hall fun i => T.valid (entries i)

omit [DecidableEq ι] [LT τ] [DecidableLT τ] in
/-- Wiping valid entries takes as many off the count. -/
theorem SlotTests.occupied_wipe (hzero : T.valid zero = false) {l : List ι} (hnodup : l.Nodup)
    (hall : ∀ i, i ∈ l) (entries : ι → ε) {dead : ι → Bool}
    (hdead : ∀ i, dead i = true → T.valid (entries i) = true) :
    T.occupied (fun i => if dead i = true then zero else entries i) =
      T.occupied entries - l.countP dead := by
  rw [← sum_eq_countP hnodup hall]
  unfold SlotTests.occupied
  rw [← Finset.sum_sub_distrib]
  refine Finset.sum_congr rfl fun i _ => ?_
  by_cases hi : dead i = true
  · simp only [hi, hdead i hi, hzero, if_true, Bool.false_eq_true, if_false, sub_self]
  · simp only [if_neg hi, sub_zero]

/-- A round counts the entry it wipes. -/
theorem SlotScan.round_count (hzero : T.valid zero = false) (s : SlotScan ι ε τ) (i : ι) :
    (s.round T zero i).count - T.occupied (s.round T zero i).entries =
      s.count - T.occupied s.entries := by
  have hoffer : ∀ q : SlotScan ι ε τ, (q.offer i).count = q.count := by
    intro q
    rw [SlotScan.offer]
    cases q.target <;> rfl
  unfold SlotScan.round
  dsimp only
  split
  · rw [hoffer, SlotScan.offer_entries]
  · next hvalid =>
    split
    · rw [hoffer, SlotScan.offer_entries]
      dsimp only
      rw [SlotTests.occupied_update, hzero, if_pos (by simpa using hvalid), if_neg Bool.false_ne_true]
      omega
    · split <;> rfl

theorem SlotScan.scan_count (hzero : T.valid zero = false) {idxs : List ι} {s s' : SlotScan ι ε τ}
    {m : Option ι} (h : SlotScan.scan T zero idxs s = (s', m)) :
    s'.count - T.occupied s'.entries = s.count - T.occupied s.entries := by
  induction idxs generalizing s with
  | nil =>
    cases h
    rfl
  | cons i rest ih =>
    rw [SlotScan.scan] at h
    split at h
    · cases h
      rfl
    · exact (ih h).trans (SlotScan.round_count hzero s i)

end

/-! ## The insert -/

/-- **An insert, by cases.** Every slot but one is kept or wiped. That one held the
key and is refreshed, and no slot before it holds the key; or it holds the record and
no other slot of the scan holds the key. -/
theorem place_cases (T : SlotTests ε τ) (zero : ε) (hzero : T.valid zero = false) (latest : τ)
    {start : ι} {idxs : List ι} (hstart : start ∈ idxs) (entries : ι → ε) (count : Int)
    (record : ε) (refresh : ε → ε) :
    let p := place T zero latest start idxs entries count record refresh
    p.idx ∈ idxs ∧
    (∀ j, j ≠ p.idx → p.entries j = entries j ∨ p.entries j = zero) ∧
    ((p.placement = .refreshed ∧ p.entries p.idx = refresh (entries p.idx) ∧
        T.valid (entries p.idx) = true ∧ T.holds (entries p.idx) = true ∧
        ∃ pre post, idxs = pre ++ p.idx :: post ∧ ∀ j ∈ pre, j ≠ p.idx →
          T.valid (p.entries j) = true → T.holds (p.entries j) = false) ∨
      (p.placement ≠ .refreshed ∧ p.entries p.idx = record ∧
        ∀ j ∈ idxs, j ≠ p.idx → T.valid (p.entries j) = true →
          T.holds (p.entries j) = false)) := by
  intro p
  have hp : p = place T zero latest start idxs entries count record refresh := rfl
  rw [place] at hp
  rcases hscan : SlotScan.scan T zero idxs ⟨entries, count, none, latest, start⟩ with ⟨s, _ | idx⟩
  · -- the record goes to a slot of its own
    obtain ⟨htarget, holdest⟩ := SlotScan.scan_target_mem hscan
    rw [hscan] at hp
    cases ht : s.target with
    | some t =>
      simp only [ht] at hp
      obtain ⟨hothers, hsole⟩ := SlotScan.record_cases hzero hscan t record
      rw [hp]
      refine ⟨?_, hothers, Or.inr ⟨fun h => (nomatch h), Function.update_self .., hsole⟩⟩
      rcases htarget t ht with hmem | hnone
      · exact hmem
      · cases hnone
    | none =>
      simp only [ht] at hp
      obtain ⟨hothers, hsole⟩ := SlotScan.record_cases hzero hscan s.oldestIdx record
      rw [hp]
      refine ⟨?_, hothers, Or.inr ⟨fun h => (nomatch h), Function.update_self .., hsole⟩⟩
      rcases holdest with hmem | heq
      · exact hmem
      · exact heq ▸ hstart
  · rw [hscan] at hp
    obtain ⟨hmem, hvalid, hholds⟩ := SlotScan.scan_some hscan
    have hkept : s.entries idx = entries idx := by
      rcases SlotScan.scan_entries hscan idx with heq | hwiped
      · exact heq
      · rw [hwiped, hzero] at hvalid
        cases hvalid
    rw [hp]
    obtain ⟨pre, post, hsplit, hpre⟩ := SlotScan.scan_some_first hzero hscan
    refine ⟨hmem, fun j hj => ?_, Or.inl ⟨rfl, ?_, hkept ▸ hvalid, hkept ▸ hholds, pre, post,
      hsplit, fun j hj hne hvalid => ?_⟩⟩
    · simp only [Function.update_of_ne hj]
      exact SlotScan.scan_entries hscan j
    · rw [← hkept]
      exact Function.update_self ..
    · simp only [Function.update_of_ne hne] at hvalid ⊢
      exact hpre j hj hvalid

/-- **An insert stays within the slots of its scan.** -/
theorem place_outside (T : SlotTests ε τ) (zero : ε) (latest : τ) {start : ι} {idxs : List ι}
    (hstart : start ∈ idxs) (entries : ι → ε) (count : Int) (record : ε) (refresh : ε → ε) {j : ι}
    (hj : j ∉ idxs) :
    (place T zero latest start idxs entries count record refresh).entries j = entries j := by
  have hne : ∀ {i}, i ∈ idxs → j ≠ i := fun hi heq => hj (heq ▸ hi)
  rw [place]
  rcases hscan : SlotScan.scan T zero idxs ⟨entries, count, none, latest, start⟩ with ⟨s, _ | idx⟩
  · have hkept : s.entries j = entries j := SlotScan.scan_outside hscan hj
    obtain ⟨htarget, holdest⟩ := SlotScan.scan_target_mem hscan
    dsimp only
    cases ht : s.target with
    | some t =>
      have hmem : t ∈ idxs := (htarget t ht).resolve_right fun hnone => by cases hnone
      exact (Function.update_of_ne (hne hmem) ..).trans hkept
    | none =>
      have hmem : s.oldestIdx ∈ idxs := by
        rcases holdest with hmem | heq
        · exact hmem
        · exact heq ▸ hstart
      exact (Function.update_of_ne (hne hmem) ..).trans hkept
  · have hkept : s.entries j = entries j := SlotScan.scan_outside hscan hj
    obtain ⟨hmem, -, -⟩ := SlotScan.scan_some hscan
    exact (Function.update_of_ne (hne hmem) ..).trans hkept

/-- **What was inserted is found first.** -/
theorem place_find (T : SlotTests ε τ) (zero : ε) (hzero : T.valid zero = false) (latest : τ)
    {start : ι} {idxs : List ι} (hstart : start ∈ idxs) (hnodup : idxs.Nodup) (entries : ι → ε)
    (count : Int) (record : ε) (refresh : ε → ε)
    (hrecord : (T.valid record && T.holds record) = true)
    (hrefresh : ∀ e, T.valid e = true → T.holds e = true →
      (T.valid (refresh e) && T.holds (refresh e)) = true) :
    let p := place T zero latest start idxs entries count record refresh
    idxs.find? (fun i => T.valid (p.entries i) && T.holds (p.entries i)) = some p.idx := by
  intro p
  obtain ⟨hmem, -, hcase⟩ := place_cases T zero hzero latest hstart entries count record refresh
  have hself : (T.valid (p.entries p.idx) && T.holds (p.entries p.idx)) = true := by
    rcases hcase with ⟨-, hself, hvalid, hholds, -⟩ | ⟨-, hself, -⟩
    · exact hself ▸ hrefresh _ hvalid hholds
    · exact hself ▸ hrecord
  -- what stands before the slot in probing order holds another key, or nothing
  have hbefore : ∃ pre post, idxs = pre ++ p.idx :: post ∧ ∀ j ∈ pre, j ≠ p.idx →
      T.valid (p.entries j) = true → T.holds (p.entries j) = false := by
    rcases hcase with ⟨-, -, -, -, hpre⟩ | ⟨-, -, hsole⟩
    · exact hpre
    · obtain ⟨pre, post, hsplit⟩ := List.append_of_mem hmem
      exact ⟨pre, post, hsplit, fun j hj => hsole j (hsplit ▸ List.mem_append_left _ hj)⟩
  obtain ⟨pre, post, hsplit, hpre⟩ := hbefore
  refine List.find?_eq_some_iff_append.mpr ⟨hself, pre, post, hsplit, fun j hj => ?_⟩
  have hne : j ≠ p.idx := by
    rintro rfl
    rw [hsplit, List.nodup_append] at hnodup
    exact hnodup.2.2 _ hj _ List.mem_cons_self rfl
  cases hvalid : T.valid (p.entries j) with
  | false => rfl
  | true =>
    rw [hpre j hj hne hvalid]
    rfl

/-- **What an insert does to the entries that count.** Unless every slot of the scan
holds one, of another key, those of other keys are left alone. If every slot does, the
record replaces one with the earliest stamp and nothing else changes. -/
theorem place_live {ω : Type*} [LinearOrder ω] {rank : τ → ω}
    (hrank : ∀ a b : τ, a < b ↔ rank a < rank b) (T : SlotTests ε τ) (zero : ε) {latest : τ}
    (hlatest : ∀ a, rank a ≤ rank latest) (start : ι) (idxs : List ι)
    (entries : ι → ε) (count : Int) (record : ε) (refresh : ε → ε) :
    let p := place T zero latest start idxs entries count record refresh
    ((∀ j, T.Live (entries j) → T.holds (entries j) = false → p.entries j = entries j) ∧
      p.placement ≠ .evicting ∧
      ∃ j ∈ idxs, ¬ (T.Live (entries j) ∧ T.holds (entries j) = false)) ∨
    ((∀ j ∈ idxs, T.Live (entries j) ∧ T.holds (entries j) = false) ∧ p.placement = .evicting ∧
      p.entries = Function.update entries p.idx record ∧
      ∀ j ∈ idxs, rank (T.stamp (entries p.idx)) ≤ rank (T.stamp (entries j))) := by
  intro p
  have hp : p = place T zero latest start idxs entries count record refresh := rfl
  rw [place] at hp
  rcases hscan : SlotScan.scan T zero idxs ⟨entries, count, none, latest, start⟩ with ⟨s, _ | idx⟩
  · rw [hscan] at hp
    cases ht : s.target with
    | some t =>
      simp only [ht] at hp
      have hfree : ¬ T.Live (entries t) := by
        rcases SlotScan.scan_target_free hscan ht with hnone | hfree
        · cases hnone
        · exact hfree
      have hmem : t ∈ idxs := by
        rcases (SlotScan.scan_target_mem hscan).1 t ht with hmem | hnone
        · exact hmem
        · cases hnone
      rw [hp]
      refine Or.inl ⟨fun j hlive _ => ?_, Placement.noConfusion, t, hmem, fun h => hfree h.1⟩
      have hne : j ≠ t := by
        rintro rfl
        exact hfree hlive
      simp only [Function.update_of_ne hne]
      exact SlotScan.scan_live hscan hlive
    | none =>
      simp only [ht] at hp
      obtain ⟨-, hentries, hall⟩ := SlotScan.scan_full hscan ht
      obtain ⟨hmin, -, hend⟩ := SlotScan.scan_oldest hrank hscan ht
      rw [hp]
      refine Or.inr ⟨hall, rfl, ?_, fun j hj => ?_⟩
      · simp only [hentries]
      · show rank (T.stamp (entries s.oldestIdx)) ≤ rank (T.stamp (entries j))
        rcases hend with ⟨htime, -⟩ | hstamp
        · -- every stamp is the latest there is
          have hj := hmin j hj
          rw [htime] at hj
          exact (hlatest _).trans hj
        · have hj := hmin j hj
          rw [hstamp] at hj
          exact hj
  · rw [hscan] at hp
    obtain ⟨hmem, hvalid, hholds⟩ := SlotScan.scan_some hscan
    rw [hp]
    have hnot : ∀ j, T.Live (entries j) → T.holds (entries j) = false → j ≠ idx := by
      rintro j hlive hother rfl
      rw [SlotScan.scan_live hscan hlive] at hholds
      exact Bool.false_ne_true (hother.symm.trans hholds)
    refine Or.inl ⟨fun j hlive hother => ?_, Placement.noConfusion, idx, hmem, fun h =>
      hnot idx h.1 h.2 rfl⟩
    simp only [Function.update_of_ne (hnot j hlive hother)]
    exact SlotScan.scan_live hscan hlive

/-- An insert refreshes an entry of the key that counts, -/
theorem place_refreshes (T : SlotTests ε τ) (zero : ε) (latest : τ) (start : ι) {idxs : List ι}
    {entries : ι → ε} (count : Int) (record : ε) (refresh : ε → ε) {i : ι} (hi : i ∈ idxs)
    (hlive : T.Live (entries i)) (hholds : T.holds (entries i) = true) :
    (place T zero latest start idxs entries count record refresh).placement = .refreshed := by
  rw [place]
  rcases hscan : SlotScan.scan T zero idxs ⟨entries, count, none, latest, start⟩ with ⟨s, m⟩
  have hmeets : (SlotScan.scan T zero idxs ⟨entries, count, none, latest, start⟩).2.isSome = true :=
    SlotScan.scan_meets hi hlive hholds
  rw [hscan] at hmeets
  obtain ⟨idx, rfl⟩ := Option.isSome_iff_exists.mp hmeets
  rfl

/-- and only such an entry. -/
theorem place_refreshed (T : SlotTests ε τ) (zero : ε) (hzero : T.valid zero = false) (latest : τ)
    (start : ι) (idxs : List ι) (entries : ι → ε) (count : Int) (record : ε) (refresh : ε → ε) :
    let p := place T zero latest start idxs entries count record refresh
    p.placement = .refreshed → T.Live (entries p.idx) ∧ T.holds (entries p.idx) = true := by
  intro p hrefreshed
  have hp : p = place T zero latest start idxs entries count record refresh := rfl
  rw [place] at hp
  rcases hscan : SlotScan.scan T zero idxs ⟨entries, count, none, latest, start⟩ with ⟨s, _ | idx⟩
  · -- the scan has stopped at a record, and has wiped none that it stopped at
    rw [hscan] at hp
    cases ht : s.target with
    | some t =>
      simp only [ht] at hp
      rw [hp] at hrefreshed
      cases hrefreshed
    | none =>
      simp only [ht] at hp
      rw [hp] at hrefreshed
      cases hrefreshed
  · rw [hscan] at hp
    have hlive := SlotScan.scan_some_live hscan
    obtain ⟨-, -, hholds⟩ := SlotScan.scan_some hscan
    have hkept : s.entries idx = entries idx := by
      rcases SlotScan.scan_entries hscan idx with heq | hwiped
      · exact heq
      · have hvalid := hlive.valid
        rw [hwiped, hzero] at hvalid
        cases hvalid
    rw [hp]
    exact ⟨hkept ▸ hlive, hkept ▸ hholds⟩

/-- **An expired entry** does not outlast an insert that goes over all the slots. -/
theorem place_expired (T : SlotTests ε τ) (zero : ε) (latest : τ) (start : ι) {idxs : List ι}
    {entries : ι → ε} (count : Int) (record : ε) (refresh : ε → ε) {i : ι} (hi : i ∈ idxs)
    (hvalid : T.valid (entries i) = true) (hexp : T.expired (entries i) = true) :
    let p := place T zero latest start idxs entries count record refresh
    p.placement ≠ .refreshed → p.entries i = zero ∨ p.entries i = record := by
  intro p hnot
  have hp : p = place T zero latest start idxs entries count record refresh := rfl
  rw [place] at hp
  rcases hscan : SlotScan.scan T zero idxs ⟨entries, count, none, latest, start⟩ with ⟨s, _ | idx⟩
  · -- the scan went over all slots and wiped it; the record may go into its place
    have hwiped : s.entries i = zero := SlotScan.scan_wipes hscan hi hvalid hexp
    have hupdate : ∀ t, Function.update s.entries t record i = zero ∨
        Function.update s.entries t record i = record := by
      intro t
      rw [Function.update_apply]
      split
      · exact Or.inr rfl
      · exact Or.inl hwiped
    rw [hscan] at hp
    cases ht : s.target with
    | some t =>
      simp only [ht] at hp
      rw [hp]
      exact hupdate t
    | none =>
      simp only [ht] at hp
      rw [hp]
      exact hupdate s.oldestIdx
  · rw [hscan] at hp
    rw [hp] at hnot
    exact absurd rfl hnot

/-- **The count stays right**: it changes by as much as the number of valid entries. -/
theorem place_count [Fintype ι] (T : SlotTests ε τ) (zero : ε) (hzero : T.valid zero = false)
    (latest : τ) {start : ι} {idxs : List ι} (hstart : start ∈ idxs) (entries : ι → ε)
    (count : Int) {record : ε} (hrecord : T.valid record = true) {refresh : ε → ε}
    (hrefresh : ∀ e, T.valid (refresh e) = T.valid e) :
    let p := place T zero latest start idxs entries count record refresh
    p.count - T.occupied p.entries = count - T.occupied entries := by
  intro p
  have hp : p = place T zero latest start idxs entries count record refresh := rfl
  rw [place] at hp
  rcases hscan : SlotScan.scan T zero idxs ⟨entries, count, none, latest, start⟩ with ⟨s, m⟩
  have hcount : s.count - T.occupied s.entries = count - T.occupied entries :=
    SlotScan.scan_count hzero hscan
  rw [hscan] at hp
  cases m with
  -- a match is refreshed where it stands
  | some idx =>
    rw [hp]
    dsimp only
    rw [SlotTests.occupied_update, hrefresh]
    omega
  | none =>
    cases ht : s.target with
    -- an unused slot is taken
    | some t =>
      simp only [ht] at hp
      have hfree : T.valid (s.entries t) = false := by
        rcases SlotScan.scan_target_invalid hzero hscan ht with hnone | hfree
        · cases hnone
        · exact hfree
      rw [hp]
      dsimp only
      rw [SlotTests.occupied_update, hrecord, hfree, if_neg Bool.false_ne_true, if_pos rfl]
      omega
    | none =>
      simp only [ht] at hp
      obtain ⟨-, hentries, hall⟩ := SlotScan.scan_full hscan ht
      -- all slots are live, and the oldest one is replaced
      have holdest : s.oldestIdx ∈ idxs := by
        rcases (SlotScan.scan_target_mem hscan).2 with hmem | heq
        · exact hmem
        · exact heq ▸ hstart
      have hvalid : T.valid (s.entries s.oldestIdx) = true := by
        rw [hentries]
        exact (hall _ holdest).1.valid
      rw [hp]
      dsimp only
      rw [SlotTests.occupied_update, hrecord, hvalid]
      omega

end

end Nyet.Lib
