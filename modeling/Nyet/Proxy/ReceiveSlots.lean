import Nyet.Lib.Parties
import Nyet.Lib.Run

/-!
# Receive slots (`iocp_worker_loop`, `post_recv`)

`main` posts one receive for each of the 50 contexts. A completion hands its context to the
worker whose `GetQueuedCompletionStatus` returns it, and the worker gives it back to the
kernel with `post_recv`, whatever came of the request. `post_recv` does not look at what
`WSARecvFrom` returns: `slots_kept_iff` says that this is the one way a slot is lost.

A receive that was posted is with the kernel until a worker gets its completion.
-/

namespace Nyet

/-- `POOL_SIZE` -/
def poolSize : Nat := 50

/-- Where a worker stands in `iocp_worker_loop`. -/
inductive LoopStage where
  /-- In `GetQueuedCompletionStatus`. -/
  | waiting
  /-- In `process_request`. -/
  | handling (slot : Fin poolSize)
  /-- Before `post_recv`. -/
  | reposting (slot : Fin poolSize)
  deriving DecidableEq, Repr

/-- The worker has this slot's context in hand. -/
def LoopStage.holds (slot : Fin poolSize) : LoopStage → Bool
  | .waiting => false
  | .handling s => s = slot
  | .reposting s => s = slot

/-- Which slots are posted, and where the workers stand. -/
structure Receiving where
  posted : Fin poolSize → Bool
  workers : List LoopStage

/-- One step of worker `w`. -/
inductive LoopMove where
  /-- `GetQueuedCompletionStatus` returns the completion of a posted receive. -/
  | complete (w : Nat) (slot : Fin poolSize) (success : Bool) (bytes : Nat)
  /-- It returns without one (`overlapped == NULL`). -/
  | wake (w : Nat)
  /-- `process_request` returns. -/
  | processed (w : Nat)
  /-- `post_recv`, and whether `WSARecvFrom` posts the receive. -/
  | postRecv (w : Nat) (ok : Bool)
  deriving DecidableEq, Repr

/-- `post_recv` -/
def Receiving.postRecv (s : Receiving) (slot : Fin poolSize) (ok : Bool) : Receiving :=
  { s with posted := Function.update s.posted slot ok }

/-- Worker `w` moves on. -/
def Receiving.at (s : Receiving) (w : Nat) (stage : LoopStage) : Receiving :=
  { s with workers := s.workers.set w stage }

/-- `iocp_worker_loop`, from one call to the next. -/
def Receiving.step (s : Receiving) : LoopMove → Receiving
  | .complete w slot success bytes =>
    if s.workers[w]? = some .waiting ∧ s.posted slot then
      { s with posted := Function.update s.posted slot false }.at w
        (if !success || bytes == 0 then .reposting slot else .handling slot)
    else s
  | .wake _ => s
  | .processed w =>
    match s.workers[w]? with
    | some (.handling slot) => s.at w (.reposting slot)
    | _ => s
  | .postRecv w ok =>
    match s.workers[w]? with
    | some (.reposting slot) => (s.postRecv slot ok).at w .waiting
    | _ => s

/-- `main` has primed the pool, with these results, and started its workers. -/
def Receiving.start (primed : Fin poolSize → Bool) (workers : Nat) : Receiving :=
  ⟨primed, List.replicate workers .waiting⟩

/-- **No slot is lost**: each is posted, or in the hands of exactly one worker. -/
def SlotsKept (s : Receiving) : Prop :=
  ∀ slot, (s.posted slot = true ∧ ∀ stage ∈ s.workers, stage.holds slot = false) ∨
    (s.posted slot = false ∧ ∃! w : Nat, ∃ stage, s.workers[w]? = some stage ∧ stage.holds slot = true)

/-- The slot whose receive a move should post and does not. -/
def Receiving.loses (s : Receiving) : LoopMove → Option (Fin poolSize)
  | .postRecv w ok =>
    match s.workers[w]? with
    | some (.reposting slot) => if ok then none else some slot
    | _ => none
  | _ => none

/-- The condition: every `WSARecvFrom` posts its receive, those of `main` included. -/
def PostsSucceed (primed : Fin poolSize → Bool) (workers : Nat) (moves : List LoopMove) : Prop :=
  (∀ slot, primed slot = true) ∧
    Lib.EveryStep Receiving.step (fun s m => s.loses m = none) (.start primed workers) moves

/-! ## Counting the places a slot is in -/

/-- In how many places a slot is. -/
def Receiving.places (s : Receiving) (slot : Fin poolSize) : Nat :=
  (s.posted slot).toNat + s.workers.countP (LoopStage.holds slot)

/-- No slot is in two places. -/
def Receiving.Single (s : Receiving) : Prop := ∀ slot, s.places slot ≤ 1

theorem slotsKept_iff {s : Receiving} : SlotsKept s ↔ ∀ slot, s.places slot = 1 := by
  refine forall_congr' fun slot => ?_
  rw [Receiving.places]
  have hnone : s.workers.countP (LoopStage.holds slot) = 0 ↔
      ∀ stage ∈ s.workers, stage.holds slot = false := by simp [List.countP_eq_zero]
  rw [← Lib.countP_eq_one_iff, ← hnone]
  cases s.posted slot with
  | true => simp
  | false => simp

/-- A worker moves on. -/
theorem Receiving.places_at {s : Receiving} {w : Nat} {old : LoopStage}
    (hw : s.workers[w]? = some old) (new : LoopStage) (slot : Fin poolSize) :
    (s.at w new).places slot + (old.holds slot).toNat =
      s.places slot + (new.holds slot).toNat := by
  have hset := @Lib.countP_set_add _ (LoopStage.holds slot) _ _ _ new hw
  unfold Receiving.places Receiving.at
  dsimp only
  omega

/-- A slot is posted, or its receive completes. -/
theorem Receiving.places_postRecv (s : Receiving) (slot : Fin poolSize) (ok : Bool)
    (slot' : Fin poolSize) :
    (s.postRecv slot ok).places slot' + (decide (slot = slot') && s.posted slot).toNat =
      s.places slot' + (decide (slot = slot') && ok).toNat := by
  unfold Receiving.places Receiving.postRecv
  dsimp only
  by_cases hslot : slot = slot'
  · subst hslot
    rw [Function.update_self, decide_eq_true rfl, Bool.true_and, Bool.true_and]
    omega
  · rw [Function.update_of_ne (Ne.symm hslot), decide_eq_false hslot, Bool.false_and, Bool.false_and]

/-- A slot a worker has in hand is not posted. -/
theorem Receiving.Single.not_posted {s : Receiving} (h : s.Single) {w : Nat} {stage : LoopStage}
    (hw : s.workers[w]? = some stage) {slot : Fin poolSize} (hholds : stage.holds slot = true) :
    s.posted slot = false := by
  have hpos := Lib.countP_pos_of_getElem? hw hholds
  have hone := h slot
  rw [Receiving.places] at hone
  cases hposted : s.posted slot with
  | false => rfl
  | true =>
    rw [hposted, Bool.toNat_true] at hone
    omega

/-- A receive completes: the slot goes from the kernel to the worker. -/
theorem Receiving.places_complete (s : Receiving) (w : Nat) (taken : Fin poolSize)
    (success : Bool) (bytes : Nat) (slot : Fin poolSize) :
    (s.step (.complete w taken success bytes)).places slot = s.places slot := by
  unfold Receiving.step
  dsimp only
  split
  case isTrue hdone =>
    obtain ⟨hw, hposted⟩ := hdone
    have hkernel := s.places_postRecv taken false slot
    have hworker := Receiving.places_at (s := s.postRecv taken false) hw
      (if !success || bytes == 0 then .reposting taken else .handling taken) slot
    have hholds : (if !success || bytes == 0 then LoopStage.reposting taken
        else .handling taken).holds slot = decide (taken = slot) := by
      split <;> rfl
    rw [hholds] at hworker
    rw [hposted, Bool.and_true, Bool.and_false] at hkernel
    have hfree : (LoopStage.waiting.holds slot).toNat = 0 := rfl
    have hfalse : false.toNat = 0 := rfl
    show ((s.postRecv taken false).at w _).places slot = _
    omega
  case isFalse => rfl

/-- A request is done with: the slot stays with the worker. -/
theorem Receiving.places_processed (s : Receiving) (w : Nat) (slot : Fin poolSize) :
    (s.step (.processed w)).places slot = s.places slot := by
  unfold Receiving.step
  dsimp only
  split
  case h_1 held hw => exact Nat.add_right_cancel (Receiving.places_at hw (.reposting held) slot)
  case h_2 => rfl

/-- A worker posts its receive: the slot goes back to the kernel, or is gone. -/
theorem Receiving.places_reposted {s : Receiving} (h : s.Single) {w : Nat} {held : Fin poolSize}
    (hw : s.workers[w]? = some (.reposting held)) (ok : Bool) (slot : Fin poolSize) :
    ((s.postRecv held ok).at w .waiting).places slot +
      (decide ((if ok then none else some held) = some slot)).toNat = s.places slot := by
  have hkernel := s.places_postRecv held ok slot
  have hworker := Receiving.places_at (s := s.postRecv held ok) hw .waiting slot
  have hposted : s.posted held = false := h.not_posted hw (decide_eq_true rfl)
  have hholds : (LoopStage.reposting held).holds slot = decide (held = slot) := rfl
  have hfree : (LoopStage.waiting.holds slot).toNat = 0 := rfl
  rw [hposted, Bool.and_false, Bool.toNat_false] at hkernel
  rw [hholds] at hworker
  cases ok with
  | true =>
    rw [Bool.and_true] at hkernel
    show ((s.postRecv held true).at w .waiting).places slot + 0 = _
    omega
  | false =>
    rw [Bool.and_false, Bool.toNat_false] at hkernel
    have hlost : decide ((if false = true then none else some held) = some slot) =
        decide (held = slot) := by simp
    rw [hlost]
    omega

/-- **What a move does to the places of a slot**: nothing, except that a receive that is not
posted takes the slot out of the one place it was in. -/
theorem Receiving.places_step {s : Receiving} (h : s.Single) (m : LoopMove) (slot : Fin poolSize) :
    (s.step m).places slot + (decide (s.loses m = some slot)).toNat = s.places slot := by
  cases m with
  | complete w taken success bytes => exact s.places_complete w taken success bytes slot
  | wake w => rfl
  | processed w => exact s.places_processed w slot
  | postRecv w ok =>
    cases hw : s.workers[w]? with
    | none => simp [Receiving.step, Receiving.loses, hw]
    | some stage =>
      cases stage with
      | reposting held =>
        have hstep : s.step (.postRecv w ok) = (s.postRecv held ok).at w .waiting := by
          simp only [Receiving.step, hw]
        have hloses : s.loses (.postRecv w ok) = if ok then none else some held := by
          simp only [Receiving.loses, hw]
        rw [hstep, hloses]
        exact Receiving.places_reposted h hw ok slot
      | waiting | handling => simp [Receiving.step, Receiving.loses, hw]

theorem Receiving.Single.step {s : Receiving} (h : s.Single) (m : LoopMove) : (s.step m).Single := by
  intro slot
  have hstep := Receiving.places_step h m slot
  have hone := h slot
  omega

theorem Receiving.start_places (primed : Fin poolSize → Bool) (workers : Nat) (slot : Fin poolSize) :
    (Receiving.start primed workers).places slot = (primed slot).toNat := by
  rw [Receiving.places, Receiving.start]
  dsimp only
  rw [List.countP_eq_zero.mpr, Nat.add_zero]
  intro stage hstage
  rw [List.eq_of_mem_replicate hstage]
  exact Bool.false_ne_true

/-- **One move keeps every slot exactly where it does not fail to post one.** -/
theorem slotsKept_step {s : Receiving} (h : s.Single) (hkept : SlotsKept s) (m : LoopMove) :
    SlotsKept (s.step m) ↔ s.loses m = none := by
  rw [slotsKept_iff] at hkept ⊢
  constructor
  · intro hafter
    rw [Option.eq_none_iff_forall_ne_some]
    intro slot hlost
    have hstep := Receiving.places_step h m slot
    rw [hkept slot, hafter slot, decide_eq_true hlost, Bool.toNat_true] at hstep
    omega
  · intro hnone slot
    have hstep := Receiving.places_step h m slot
    rw [hnone, decide_eq_false (by simp), Bool.toNat_false, hkept slot] at hstep
    exact hstep

/-- **When no receive slot is lost.** For every number of workers and every sequence of
completions: every slot is posted or in the hands of exactly one worker, in every state,
exactly if every `WSARecvFrom` posts its receive. -/
theorem slots_kept_iff (primed : Fin poolSize → Bool) (workers : Nat) (moves : List LoopMove) :
    Lib.EveryState Receiving.step SlotsKept (.start primed workers) moves ↔
      PostsSucceed primed workers moves := by
  have hsingle : (Receiving.start primed workers).Single := by
    intro slot
    rw [Receiving.start_places]
    exact Bool.toNat_le _
  have hstart : SlotsKept (.start primed workers) ↔ ∀ slot, primed slot = true := by
    rw [slotsKept_iff]
    refine forall_congr' fun slot => ?_
    rw [Receiving.start_places]
    exact Bool.toNat_eq_one
  -- from a state with every slot in its place it is a matter of each completion
  have hrun : SlotsKept (.start primed workers) →
      (Lib.EveryState Receiving.step SlotsKept (.start primed workers) moves ↔
        Lib.EveryStep Receiving.step (fun s m => s.loses m = none) (.start primed workers) moves) :=
    fun hkept => Lib.everyState_iff_everyStep (G := fun _ _ => True)
      (fun _ m h _ => h.step m) (fun _ m h _ hkept => slotsKept_step h hkept m) hsingle hkept
      (Lib.everyStep_of_mem (fun _ _ _ => trivial) _)
  rw [PostsSucceed]
  constructor
  · intro hevery
    exact ⟨hstart.mp hevery.head, (hrun hevery.head).mp hevery⟩
  · rintro ⟨hprimed, hsteps⟩
    exact (hrun (hstart.mpr hprimed)).mpr hsteps

/-- A packet comes in and is handled, and the next receive cannot be posted. -/
def failedRepost : List LoopMove :=
  [.complete 0 ⟨0, by decide⟩ true 29, .processed 0, .postRecv 0 false]

/-- Nobody has the slot any more. -/
theorem failedRepost_loses_slot :
    ¬ Lib.EveryState Receiving.step SlotsKept (.start (fun _ => true) 1) failedRepost := by
  rw [slots_kept_iff]
  rintro ⟨-, -, -, hlost, -⟩
  exact absurd hlost (by decide)

end Nyet
