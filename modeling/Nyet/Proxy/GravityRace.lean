import Nyet.Proxy.ThreadMoves

/-!
# Whether a gravity confirmation lasts

Between two reloads every thread works on one tree. A worker that found a domain
unmatched inserts a REVIEW entry for it later, in another turn at the lock, and an
insert replaces whatever entry its node has. `gravity_kept_iff` says exactly when no
confirmation is lost to that.
-/

namespace Nyet

/-- The threads, and the domains gravity threads have inserted as BLOCKED so far. -/
structure Confirming where
  threads : Threads
  confirmed : List CStr

/-- The domain a move inserts as BLOCKED, with return value 0. -/
def Threads.confirms (s : Threads) : Move → Option CStr
  | .insert i a now =>
    match s.checks[i]? with
    | some ⟨domain, .confirmed⟩ =>
      if (gravityInsert a s.tree now domain).1 = 0 then some domain else none
    | _ => none
  | _ => none

/-- One move. -/
def Confirming.step (score : Scorer) (s : Confirming) (m : Move) : Confirming :=
  { threads := s.threads.step score m
    confirmed := (s.threads.confirms m).toList ++ s.confirmed }

/-- Nothing was confirmed yet. -/
def Confirming.start (threads : Threads) : Confirming := ⟨threads, []⟩

/-- The tree as a block map. -/
def Confirming.blocklist (s : Confirming) : BlockMap := s.threads.tree.map

/-- **No confirmation is lost**: `radix_lookup` returns BLOCKED for every confirmed
domain that no ALLOWED entry covers. -/
def ConfirmationsKept (s : Confirming) : Prop :=
  ∀ d ∈ s.confirmed, ¬ s.blocklist.Covers .allowed (normalise d) →
    ∀ now, (radixLookup s.threads.tree now d).1.outcome = some .blocked

/-- The entry at `domain` is the only BLOCKED or ALLOWED one that covers some
confirmed domain. -/
def Confirming.RestsOn (s : Confirming) (domain : CStr) : Prop :=
  ∃ d ∈ s.confirmed, ¬ s.blocklist.DecidedBut (normalise domain) (normalise d)

/-- The condition: a live insert where a confirmation rests is a REVIEW insert that
cannot copy its note, or a BLOCKED one that finds memory for its entry. -/
def InsertSpares (score : Scorer) (s : Confirming) (m : Move) : Prop :=
  ∀ a domain e, s.threads.liveInsert score m = some (a, domain, e) → Insertable domain →
    s.RestsOn domain → (e.status = .review ↔ a.next.1 = false)

/-! ## The invariant -/

/-- What was inserted can be looked up. -/
def ConfirmedInsertable (s : Confirming) : Prop := ∀ d ∈ s.confirmed, Insertable d

theorem Threads.swapsIn_of_ne {s : Threads} {m : Move} (h : m ≠ .swap) : s.swapsIn m = none := by
  unfold Threads.swapsIn
  split
  · exact absurd rfl h
  · rfl

theorem Threads.confirms_some (score : Scorer) {s : Threads} {m : Move} {d : CStr}
    (h : s.confirms m = some d) :
    ∃ a e, s.liveInsert score m = some (a, d, e) ∧ e.status = .blocked ∧
      (radixTreeInsertLive a s.tree d e).1 = 0 := by
  unfold Threads.confirms at h
  split at h
  · next i a now =>
    split at h
    · next domain hi =>
      split at h
      · next hrc =>
        cases h
        exact ⟨a, gravityEntry now, by simp [Threads.liveInsert, hi], rfl, hrc⟩
      · cases h
    · cases h
  · cases h

theorem ConfirmedInsertable.step (score : Scorer) {s : Confirming} (h : ConfirmedInsertable s)
    (m : Move) : ConfirmedInsertable (s.step score m) := by
  intro d hd
  rcases List.mem_append.mp hd with hnew | hold
  · obtain ⟨a, e, -, -, hrc⟩ := Threads.confirms_some score (Option.mem_toList.mp hnew)
    exact (radixTreeInsertLive_done hrc).1
  · exact h d hold

theorem confirmationsKept_iff {s : Confirming} (h : ConfirmedInsertable s) :
    ConfirmationsKept s ↔ ∀ d ∈ s.confirmed, s.blocklist.Decided (normalise d) := by
  refine forall₂_congr fun d hd => ?_
  rw [BlockMap.decided_iff_outcome]
  constructor
  · intro hkept hallowed
    rw [← hkept hallowed 0, radixLookup_outcome _ _ (h d hd).1]
    rfl
  · intro hdecided hallowed now
    rw [radixLookup_outcome _ _ (h d hd).1]
    exact hdecided hallowed

/-! ## One move -/

/-- A decided entry survives a live insert onto it exactly under the condition. -/
theorem replaceEntry_decided {e old : Entry} {a : Alloc} (hold : old.status ≠ .review)
    (he : (e.status = .review ∧ e.note.isSome = true) ∨ (e.status = .blocked ∧ e.note = none)) :
    (∃ e', replaceEntry e (some old) a = some e' ∧ e'.status ≠ .review) ↔
      (e.status = .review ↔ a.next.1 = false) := by
  -- a REVIEW entry undoes the old one unless it cannot copy its note; a BLOCKED one only where it
  -- cannot be made
  rcases he with ⟨hreview, hnote⟩ | ⟨hblocked, hnote⟩
  · rw [iff_true_left hreview]
    rcases replaceEntry_note hnote (some old) a with ⟨hnext, hkeep⟩ | ⟨hnext, hlost | hlost⟩
    · exact iff_of_true ⟨old, hkeep, hold⟩ hnext
    · refine iff_of_false ?_ (by rw [hnext]; decide)
      rintro ⟨e', he', hst⟩
      rw [hlost] at he'
      cases he'
      exact hst hreview
    · refine iff_of_false ?_ (by rw [hnext]; decide)
      rintro ⟨e', he', -⟩
      rw [hlost] at he'
      cases he'
  · have hne : e.status ≠ .review := by
      rw [hblocked]
      decide
    rw [iff_false_left hne, replaceEntry_plain hnote]
    cases a.next.1 with
    | true => exact iff_of_true ⟨e, rfl, hne⟩ (by decide)
    | false =>
      refine iff_of_false ?_ (by decide)
      rintro ⟨e', he', -⟩
      cases he'

/-- **One move keeps every confirmation exactly where it meets the condition.** -/
theorem confirmationsKept_step (score : Scorer) {s : Confirming} {m : Move}
    (h : ConfirmedInsertable s) (hswap : s.threads.swapsIn m = none) (hkept : ConfirmationsKept s) :
    ConfirmationsKept (s.step score m) ↔ InsertSpares score s m := by
  rw [confirmationsKept_iff h] at hkept
  rw [confirmationsKept_iff (h.step score m)]
  cases hlive : s.threads.liveInsert score m with
  | none =>
    refine iff_of_true ?_ fun a domain e hsome => ?_
    · intro d hd
      rcases List.mem_append.mp hd with hnew | hold
      · obtain ⟨a, e, hsome, -, -⟩ :=
          Threads.confirms_some score (Option.mem_toList.mp hnew)
        rw [hlive] at hsome
        cases hsome
      · exact (hkept d hold).of_core (Threads.step_tree_core hlive hswap).symm
    · rw [hlive] at hsome
      cases hsome
  | some inserted =>
    obtain ⟨a, domain, e⟩ := inserted
    have htree : (s.step score m).blocklist = (radixTreeInsertLive a s.threads.tree domain e).2.map :=
      congrArg RadixTree.map (Threads.step_liveInsert hlive)
    have hone : ∀ d ∈ s.confirmed, (s.step score m).blocklist.Decided (normalise d) ↔
        (Insertable domain → ¬ s.blocklist.DecidedBut (normalise domain) (normalise d) →
          (e.status = .review ↔ a.next.1 = false)) := by
      intro d hd
      rw [htree, radixTreeInsertLive_decided (hkept d hd)]
      refine imp_congr_right fun _ => ?_
      by_cases hbut : s.blocklist.DecidedBut (normalise domain) (normalise d)
      · exact iff_of_true (Or.inl hbut) fun hno => absurd hbut hno
      · obtain ⟨-, -, old, hold, hst⟩ := ((BlockMap.decided_split _).mp (hkept d hd)).resolve_left hbut
        rw [← replaceEntry_decided hst (Threads.liveInsert_entry hlive), imp_iff_right hbut]
        rw [show s.threads.tree.map (normalise domain) = some old from hold]
        exact or_iff_right hbut
    constructor
    · intro hafter a' domain' e' hlive' hins hrests
      rw [hlive] at hlive'
      cases hlive'
      obtain ⟨d, hd, hbut⟩ := hrests
      exact (hone d hd).mp (hafter d (List.mem_append_right _ hd)) hins hbut
    · intro hspares d hd
      rcases List.mem_append.mp hd with hnew | hold
      · -- the domain this move has confirmed
        obtain ⟨a', e', hlive', hblocked, hrc⟩ :=
          Threads.confirms_some score (Option.mem_toList.mp hnew)
        rw [hlive] at hlive'
        cases hlive'
        obtain ⟨hins, hmap⟩ := radixTreeInsertLive_done hrc
        rw [htree]
        exact ⟨normalise domain, e, hins.2, List.prefix_refl _, hmap, by rw [hblocked]; decide⟩
      · exact (hone d hold).mpr fun hins hbut => hspares a domain e hlive hins ⟨d, hold, hbut⟩

/-- **When no gravity confirmation is lost.** In every interleaving without a swap,
every confirmed domain stays BLOCKED, unless ALLOWED, exactly if every live insert
meets the condition. -/
theorem gravity_kept_iff (score : Scorer) (threads : Threads) {ms : List Move}
    (hswap : .swap ∉ ms) :
    Lib.EveryState (Confirming.step score) ConfirmationsKept (.start threads) ms ↔
      Lib.EveryStep (Confirming.step score) (InsertSpares score) (.start threads) ms := by
  have hstep : ∀ s m, ConfirmedInsertable s → m ≠ .swap → ConfirmedInsertable (s.step score m) :=
    fun _ m h _ => h.step score m
  have hnone : ∀ m ∈ ms, m ≠ .swap := by
    rintro m hm rfl
    exact hswap hm
  exact Lib.everyState_iff_everyStep hstep
    (fun _ m h hm => confirmationsKept_step score h (Threads.swapsIn_of_ne hm))
    (fun _ hd => nomatch hd) (fun _ hd => nomatch hd) (Lib.everyStep_of_mem (fun _ => hnone) _)

/-- Freshly started on empty files. -/
def Threads.empty : Threads :=
  .start (initialTree 0 none none) (dnsCacheInit proxyCacheCapacity)
    (answerCacheInit proxyCacheCapacity) none

/-- Worker `w` looks a domain up and finds nothing. -/
def lookupMoves (w : Nat) (domain : CStr) : List Move :=
  [.lookupCache w domain 0, .lookupTree w 0, .storeVerdict w 0]

/-- Worker `w` vets it, and the Pi confirms it. -/
def confirmMoves (w : Nat) : List Move :=
  [.flag w [] 0, .claim w [], .queue w true true, .answer 0 .blocked, .insert 0 [] 0]

/-- `a.b` -/
def raceDomain : CStr := [97, 46, 98]

theorem InsertSpares.of_unconfirmed {score : Scorer} {s : Confirming} (h : s.confirmed = [])
    (m : Move) : InsertSpares score s m := by
  rintro a domain e - - ⟨d, hd, -⟩
  rw [h] at hd
  cases hd

/-- One worker alone: its REVIEW insert comes before the confirmation. -/
theorem gravity_kept_one_worker :
    Lib.EveryState (Confirming.step fun _ => (0, [])) ConfirmationsKept (.start .empty)
      (lookupMoves 0 raceDomain ++ confirmMoves 0) := by
  refine (gravity_kept_iff _ _ (by decide)).mpr ?_
  refine ⟨.of_unconfirmed rfl _, .of_unconfirmed rfl _, .of_unconfirmed rfl _,
    .of_unconfirmed rfl _, .of_unconfirmed rfl _, .of_unconfirmed rfl _, .of_unconfirmed rfl _,
    .of_unconfirmed rfl _, trivial⟩

/-- Two workers have found the domain unmatched. The second one flags it after the
gravity thread of the first has inserted it. -/
def lostRace : List Move :=
  lookupMoves 0 raceDomain ++ lookupMoves 1 raceDomain ++ confirmMoves 0 ++ [.flag 1 [] 0]

/-- The REVIEW entry has taken the place of the BLOCKED one. -/
theorem gravity_confirmation_lost :
    ¬ Lib.EveryState (Confirming.step fun _ => (0, [])) ConfirmationsKept (.start .empty)
      lostRace := by
  intro h
  have hconfirmed : (Lib.run (Confirming.step fun _ => (0, [])) (.start .empty) lostRace).confirmed =
      [raceDomain] := by decide +kernel
  have hreview : (radixLookup (Lib.run (Confirming.step fun _ => (0, [])) (.start .empty)
      lostRace).threads.tree 0 raceDomain).1.outcome = some .review := by decide +kernel
  have houtcome := hreview
  rw [radixLookup_outcome _ _ (by decide), BlockMap.outcome_eq_review] at houtcome
  have hblocked := h.last raceDomain (by rw [hconfirmed]; exact List.mem_singleton_self _)
    houtcome.2.2 0
  rw [hreview] at hblocked
  cases hblocked

end Nyet
