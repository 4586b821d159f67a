import Nyet.Proxy.FinalVerdicts

/-!
# A domain is scored once

A REVIEW entry is final in that it ends the vetting: with memory to spare a domain matches from the
moment it was scored, and so does all below it. Between two reloads it is scored again only by a
worker that had looked it up before that moment, as two workers may have that are asked for it at
once; no worker scores it twice (`scored_once`).
-/

namespace Nyet

/-- The threads, who has scored which domain, newest first, and how much of that had been when a
worker last looked its domain up in the tree. -/
structure Scorings where
  threads : Threads
  scored : List (Nat × CStr)
  known : Nat → List (Nat × CStr)

/-- The worker that scores in the move, and its domain. -/
def Threads.scores (s : Threads) : Move → Option (Nat × CStr)
  | .flag w _ _ =>
    match s.worker w with
    | .unmatched domain => some (w, domain)
    | _ => none
  | _ => none

/-- The worker whose `radix_lookup` the move is. -/
def Threads.looksUp (s : Threads) : Move → Option Nat
  | .lookupTree w _ =>
    match s.worker w with
    | .missed _ => some w
    | _ => none
  | _ => none

/-- One move. -/
def Scorings.step (score : Scorer) (s : Scorings) (m : Move) : Scorings :=
  { threads := s.threads.step score m
    scored := (s.threads.scores m).toList ++ s.scored
    known := match s.threads.looksUp m with
      | some w => Function.update s.known w s.scored
      | none => s.known }

/-- Nothing was scored yet. -/
def Scorings.start (threads : Threads) : Scorings := ⟨threads, [], fun _ => []⟩

/-- **What a worker scores is new**: neither the domain nor one above it, the root name apart, was
scored by the worker itself, or by any other before this one looked the domain up. -/
def ScoresNew (s : Scorings) (m : Move) : Prop :=
  ∀ w d, s.threads.scores m = some (w, d) → ∀ x ∈ s.scored, x.1 = w ∨ x ∈ s.known w →
    x.2 = [] ∨ ¬ normalise x.2 <+: normalise d

/-- No allocation of a live insert fails. -/
def Move.MemoryToSpare : Move → Prop
  | .flag _ a _ => a = []
  | .insert _ a _ => a = []
  | _ => True

/-- The domain a worker is going to score. -/
def WorkerStage.toScore : WorkerStage → Option CStr
  | .looked domain r => if r.matched then none else some domain
  | .unmatched domain => some domain
  | _ => none

/-- What was scored matches, and what is going to be is new. -/
structure Scorings.Inv (s : Scorings) : Prop where
  named : s.threads.Named
  root : s.threads.tree.root.isSome = true
  known : ∀ w, s.known w ⊆ s.scored
  matched : ∀ x ∈ s.scored, x.2 ≠ [] → s.threads.tree.map.Matches (normalise x.2)
  new : ∀ w d, (s.threads.worker w).toScore = some d → ∀ x ∈ s.scored, x.1 = w ∨ x ∈ s.known w →
    x.2 = [] ∨ ¬ normalise x.2 <+: normalise d

theorem BlockMap.Matches.mono {M : BlockMap} {ls ls' : List Label} (h : M.Matches ls)
    (hpre : ls <+: ls') : M.Matches ls' := by
  obtain ⟨ks, hne, hks, hsome⟩ := h
  exact ⟨ks, hne, hks.trans hpre, hsome⟩

section

variable {score : Scorer}

/-- With memory to spare the tree loses no match. -/
theorem Threads.step_grows {s : Threads} {m : Move} (hmem : m.MemoryToSpare)
    (hswap : s.swapsIn m = none) : s.tree.Grows (s.step score m).tree := by
  cases hlive : s.liveInsert score m with
  | none =>
    rcases Threads.step_tree hlive hswap with hsame | ⟨now, d, hlooked⟩
    · rw [hsame]
      exact .refl s.tree
    · rw [hlooked]
      exact radixLookup_grows s.tree now d
  | some inserted =>
    obtain ⟨a, domain, e⟩ := inserted
    have hspare : a = [] := by
      unfold Threads.liveInsert at hlive
      split at hlive
      · split at hlive <;> cases hlive
        exact hmem
      · split at hlive <;> cases hlive
        exact hmem
      · cases hlive
    rw [Threads.step_liveInsert hlive, hspare]
    exact radixTreeInsertLive_grows s.tree domain e

theorem Threads.scores_some {s : Threads} {m : Move} {w : Nat} {d : CStr}
    (h : s.scores m = some (w, d)) : s.worker w = .unmatched d ∧ ∃ a now, m = .flag w a now := by
  unfold Threads.scores at h
  split at h
  · next w' a now =>
    split at h
    · next d' hw =>
      cases h
      exact ⟨hw, a, now, rfl⟩
    · cases h
  · cases h

theorem Threads.looksUp_some {s : Threads} {m : Move} {w : Nat} (h : s.looksUp m = some w) :
    ∃ d now, m = .lookupTree w now ∧ s.worker w = .missed d := by
  unfold Threads.looksUp at h
  split at h
  · next w' now =>
    split at h
    · next d hw =>
      cases h
      exact ⟨d, now, rfl, hw⟩
    · cases h
  · cases h

/-- A worker is going to score a domain because it was, or because it has just looked it up. -/
theorem Threads.step_toScore {s : Threads} {m : Move} {w : Nat} {d : CStr}
    (h : ((s.step score m).worker w).toScore = some d) :
    ((s.worker w).toScore = some d ∧ s.looksUp m ≠ some w) ∨
      (s.looksUp m = some w ∧ s.worker w = .missed d ∧
        ∃ now, (radixLookup s.tree now d).1.matched = false) := by
  -- a worker that looks its domain up is not going to score another
  have hbusy : (s.worker w).toScore = some d → s.looksUp m ≠ some w := by
    intro hscore hlooks
    obtain ⟨d', now, -, hw⟩ := Threads.looksUp_some hlooks
    rw [hw] at hscore
    cases hscore
  rcases Threads.step_worker (rfl : (s.step score m).worker w = _) with hsame | hturn
  · rw [← hsame] at h
    exact Or.inl ⟨h, hbusy h⟩
  · generalize (s.step score m).worker w = stage at h hturn
    cases hturn with
    | @looked d' now hw =>
      right
      rw [WorkerStage.toScore] at h
      split at h
      · cases h
      · next hmatched =>
        cases h
        exact ⟨by simp [Threads.looksUp, hw], hw, now, Bool.eq_false_iff.mpr hmatched⟩
    | unmatched hw hr =>
      cases h
      have hscore : (s.worker w).toScore = some d := by
        rw [hw, WorkerStage.toScore, hr]
        rfl
      exact Or.inl ⟨hscore, hbusy hscore⟩
    | missed | flagged | claimed | done => cases h

/-- A domain that is looked up without a match is at or below nothing that matches. -/
theorem not_matches_of_unmatched {tree : RadixTree} {now : UInt32} {d : CStr}
    (hlen : d.length < labelBufSize) (h : (radixLookup tree now d).1.matched = false) :
    ¬ tree.map.Matches (normalise d) := by
  rintro ⟨ks, hne, hpre, hsome⟩
  obtain ⟨e, he⟩ := Option.isSome_iff_exists.mp hsome
  have hnone : tree.map.decision (normalise d) = none := by
    rw [← radixLookup_decision tree now hlen, LookupResult.decision, h]
    rfl
  rw [BlockMap.decision_none hnone hne hpre] at he
  cases he

theorem Scorings.Inv.step_matched {s : Scorings} (h : s.Inv) {m : Move} (hmem : m.MemoryToSpare)
    (hswap : s.threads.swapsIn m = none) :
    ∀ x ∈ (s.step score m).scored, x.2 ≠ [] →
      (s.step score m).threads.tree.map.Matches (normalise x.2) := by
  intro x hx hne
  rcases List.mem_append.mp hx with hnew | hold
  · obtain ⟨w, d⟩ := x
    obtain ⟨hw, a, now, rfl⟩ := Threads.scores_some (Option.mem_toList.mp hnew)
    obtain ⟨packet, qtype, hpacket⟩ := h.named.worker w d (congrArg WorkerStage.domain hw)
    have hins := (parseQuery_wireName hpacket).insertable hne
    have hspare : a = [] := hmem
    have hlive : s.threads.liveInsert score (.flag w a now) =
        some (a, d, reviewEntry now (score d).1 (score d).2) := by
      simp [Threads.liveInsert, hw]
    show ((s.threads.step score (.flag w a now)).tree).map.Matches _
    rw [Threads.step_liveInsert hlive, hspare]
    exact radixTreeInsertLive_matches h.root hins _
  · exact (Threads.step_grows hmem hswap).keeps _ (h.matched x hold hne)

theorem Scorings.Inv.step_new {s : Scorings} (h : s.Inv) {m : Move} {w : Nat} {d : CStr}
    (hd : ((s.step score m).threads.worker w).toScore = some d) {x : Nat × CStr}
    (hx : x ∈ (s.step score m).scored) (hown : x.1 = w ∨ x ∈ (s.step score m).known w) :
    x.2 = [] ∨ ¬ normalise x.2 <+: normalise d := by
  rcases Threads.step_toScore hd with ⟨hold, hlooks⟩ | ⟨hlooks, hmissed, now, hunmatched⟩
  · -- it was going to before: what it knows has not changed
    have hknown : (s.step score m).known w = s.known w := by
      cases hm : s.threads.looksUp m with
      | none => simp [Scorings.step, hm]
      | some w' =>
        have hne : w ≠ w' := by
          rintro rfl
          exact hlooks hm
        simp [Scorings.step, hm, hne]
    rw [hknown] at hown
    rcases List.mem_append.mp hx with hnew | hx
    · obtain ⟨w', d'⟩ := x
      obtain ⟨hw', a, now, rfl⟩ := Threads.scores_some (Option.mem_toList.mp hnew)
      rcases hown with rfl | hknows
      · have hflagged : (s.step score (.flag w' a now)).threads.worker w' = .flagged d' := by
          simp [Scorings.step, Threads.step, Threads.flag, hw']
        rw [hflagged] at hd
        cases hd
      · exact h.new w d hold _ (h.known w hknows) (Or.inr hknows)
    · exact h.new w d hold x hx hown
  · -- it has just looked the domain up, where all that was scored matched
    obtain ⟨d', now', rfl, -⟩ := Threads.looksUp_some hlooks
    have hq : IsQuestion d := h.named.worker w d (congrArg WorkerStage.domain hmissed)
    by_cases hne : x.2 = []
    · exact Or.inl hne
    · refine Or.inr fun hpre => ?_
      exact not_matches_of_unmatched hq.short hunmatched ((h.matched x hx hne).mono hpre)

/-- **Every move keeps what is to be scored new.** -/
theorem Scorings.Inv.step {s : Scorings} (h : s.Inv) {m : Move} (hm : m.AboutQuestion)
    (hmem : m.MemoryToSpare) (hswap : s.threads.swapsIn m = none) : (s.step score m).Inv := by
  refine ⟨h.named.step hm, (Threads.step_grows hmem hswap).root h.root, fun w x hx => ?_,
    h.step_matched hmem hswap, fun w d hd x hx hown => h.step_new hd hx hown⟩
  refine List.mem_append_right _ ?_
  cases hlooks : s.threads.looksUp m with
  | none => exact h.known w (by simpa [Scorings.step, hlooks] using hx)
  | some w' =>
    by_cases hw : w = w'
    · subst hw
      simpa [Scorings.step, hlooks] using hx
    · exact h.known w (by simpa [Scorings.step, hlooks, hw] using hx)

theorem Scorings.Inv.scoresNew {s : Scorings} (h : s.Inv) (m : Move) : ScoresNew s m := by
  intro w d hscores x hx hown
  obtain ⟨hw, -⟩ := Threads.scores_some hscores
  exact h.new w d (congrArg WorkerStage.toScore hw) x hx hown

/-- **A domain is scored once**, in every interleaving without a swap and with memory to spare: no
worker scores a domain at or below one it has scored, and where another has scored it, it does so
only if it had looked the domain up before. The root name apart, which the tree cannot hold. -/
theorem scored_once (tree : RadixTree) (hroot : tree.root.isSome = true) (queryCacheOk : Bool)
    (answerCache : Option (AnswerCache proxyCacheCapacity)) (learned : Option CStr) {ms : List Move}
    (hswap : .swap ∉ ms) (habout : ∀ m ∈ ms, m.AboutQuestion) (hmem : ∀ m ∈ ms, m.MemoryToSpare) :
    Lib.EveryStep (Scorings.step score) ScoresNew
      (.start (.fresh tree queryCacheOk answerCache learned)) ms := by
  have hstart : (Scorings.start (.fresh tree queryCacheOk answerCache learned)).Inv := by
    refine ⟨.start _ _ _ _, hroot, fun w x hx => ?_, fun x hx => ?_, fun w d hd => ?_⟩
    · cases hx
    · cases hx
    · cases hd
  have hplain : ∀ s : Scorings, ∀ m ∈ ms,
      m.AboutQuestion ∧ m.MemoryToSpare ∧ s.threads.swapsIn m = none := by
    refine fun s m hm => ⟨habout m hm, hmem m hm, Threads.swapsIn_of_ne ?_⟩
    rintro rfl
    exact hswap hm
  have hstep : ∀ (s : Scorings) (m : Move), s.Inv →
      m.AboutQuestion ∧ m.MemoryToSpare ∧ s.threads.swapsIn m = none → (s.step score m).Inv :=
    fun _ _ h hm => h.step hm.1 hm.2.1 hm.2.2
  exact .of_invariant hstep (fun _ m h _ => h.scoresNew m) hstart (Lib.everyStep_of_mem hplain _)

end

/-- Two workers look a domain up before either scores it: both score it, and the second one's
REVIEW entry takes the place of the confirmation in between. -/
theorem scored_once_race :
    Lib.EveryStep (Scorings.step fun _ => (0, [])) ScoresNew
      (.start (.fresh (initialTree 0 none none) true none none)) lostRace := by
  refine scored_once _ rfl true none none (by decide) (fun m hm => ?_) fun m hm => ?_
  · refine aboutQuestion_of_domain ?_
    rintro w d nowNs rfl
    simp [lostRace, lookupMoves, confirmMoves] at hm
    rcases hm with ⟨-, rfl, -⟩ | ⟨-, rfl, -⟩ <;> rfl
  · simp only [lostRace, lookupMoves, confirmMoves, List.cons_append, List.nil_append,
      List.mem_cons, List.not_mem_nil, or_false] at hm
    rcases hm with rfl | rfl | rfl | rfl | rfl | rfl | rfl | rfl | rfl | rfl | rfl | rfl
    all_goals first | rfl | trivial

end Nyet
