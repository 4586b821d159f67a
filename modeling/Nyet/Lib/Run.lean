import Mathlib

/-!
# Runs of a total step function

A system is a state and a total step function; a run is a list of events. An
event that is not enabled leaves the state alone, so every list of events is a
run and every interleaving of several parties is one.

The rules here package the induction once: an invariant that every step keeps
holds after a run, and a side condition on each step is `EveryStep` of the run
(`run_invariant_of_everyStep`). Under an invariant, two step properties that
agree at every step hold along the same runs (`everyStep_congr`).
-/

namespace Nyet.Lib

section

variable {σ ε : Type*} (step : σ → ε → σ)

/-- The state a run ends in. -/
def run : σ → List ε → σ := List.foldl step

/-- `P` holds of every event of the run in the state the event meets. -/
def EveryStep (P : σ → ε → Prop) : σ → List ε → Prop
  | _, [] => True
  | s, e :: es => P s e ∧ EveryStep P (step s e) es

/-- `P` holds in every state of the run, the first and the last included. -/
def EveryState (P : σ → Prop) : σ → List ε → Prop
  | s, [] => P s
  | s, e :: es => P s ∧ EveryState P (step s e) es

/-- `P` holds of every event of the run, the state it meets and the events still to come. -/
def EveryCut (P : σ → ε → List ε → Prop) : σ → List ε → Prop
  | _, [] => True
  | s, e :: es => P s e es ∧ EveryCut P (step s e) es

instance EveryStep.decidable (P : σ → ε → Prop) [∀ s e, Decidable (P s e)] :
    ∀ s es, Decidable (EveryStep step P s es)
  | _, [] => isTrue trivial
  | s, e :: es =>
    have := EveryStep.decidable P (step s e) es
    inferInstanceAs (Decidable (_ ∧ _))

instance EveryState.decidable (P : σ → Prop) [∀ s, Decidable (P s)] :
    ∀ s es, Decidable (EveryState step P s es)
  | s, [] => inferInstanceAs (Decidable (P s))
  | s, e :: es =>
    have := EveryState.decidable P (step s e) es
    inferInstanceAs (Decidable (_ ∧ _))

instance EveryCut.decidable (P : σ → ε → List ε → Prop) [∀ s e es, Decidable (P s e es)] :
    ∀ s es, Decidable (EveryCut step P s es)
  | _, [] => isTrue trivial
  | s, e :: es =>
    have := EveryCut.decidable P (step s e) es
    inferInstanceAs (Decidable (_ ∧ _))

variable {step}

@[simp] theorem run_nil (s : σ) : run step s [] = s := rfl

@[simp] theorem run_cons (s : σ) (e : ε) (es : List ε) :
    run step s (e :: es) = run step (step s e) es := rfl

theorem everyStep_append {P : σ → ε → Prop} {s : σ} {es fs : List ε} :
    EveryStep step P s (es ++ fs) ↔
      EveryStep step P s es ∧ EveryStep step P (run step s es) fs := by
  induction es generalizing s with
  | nil => simp [EveryStep]
  | cons e es ih => rw [List.cons_append, EveryStep, EveryStep, ih, run_cons, and_assoc]

theorem EveryStep.and {P Q : σ → ε → Prop} {s : σ} {es : List ε} (hP : EveryStep step P s es)
    (hQ : EveryStep step Q s es) : EveryStep step (fun s e => P s e ∧ Q s e) s es := by
  induction es generalizing s with
  | nil => trivial
  | cons e es ih => exact ⟨⟨hP.1, hQ.1⟩, ih hP.2 hQ.2⟩

theorem everyStep_of_mem {P : σ → ε → Prop} {es : List ε} (h : ∀ s, ∀ e ∈ es, P s e) (s : σ) :
    EveryStep step P s es := by
  induction es generalizing s with
  | nil => trivial
  | cons e es ih =>
    exact ⟨h s e List.mem_cons_self, ih (fun s e he => h s e (List.mem_cons_of_mem _ he)) (step s e)⟩

/-! ## The invariant rules -/

/-- An invariant that every step meeting its side condition keeps holds after
every run whose steps all meet it. -/
theorem run_invariant_of_everyStep {Inv : σ → Prop} {G : σ → ε → Prop}
    (hstep : ∀ s e, Inv s → G s e → Inv (step s e)) {s : σ} {es : List ε} (hs : Inv s)
    (hG : EveryStep step G s es) : Inv (run step s es) := by
  induction es generalizing s with
  | nil => exact hs
  | cons e es ih => exact ih (hstep s e hs hG.1) hG.2

/-- What holds of every step under an invariant holds along every run whose steps
keep it. -/
theorem EveryStep.of_invariant {Inv : σ → Prop} {G P : σ → ε → Prop}
    (hstep : ∀ s e, Inv s → G s e → Inv (step s e)) (hP : ∀ s e, Inv s → G s e → P s e) {s : σ}
    {es : List ε} (hs : Inv s) (hG : EveryStep step G s es) : EveryStep step P s es := by
  induction es generalizing s with
  | nil => trivial
  | cons e es ih => exact ⟨hP s e hs hG.1, ih (hstep s e hs hG.1) hG.2⟩

theorem EveryState.of_invariant {Inv P : σ → Prop} {G : σ → ε → Prop}
    (hstep : ∀ s e, Inv s → G s e → Inv (step s e)) (hP : ∀ s, Inv s → P s) {s : σ}
    {es : List ε} (hs : Inv s) (hG : EveryStep step G s es) : EveryState step P s es := by
  induction es generalizing s with
  | nil => exact hP s hs
  | cons e es ih => exact ⟨hP s hs, ih (hstep s e hs hG.1) hG.2⟩

/-- Under an invariant that `G`-steps keep, two step properties that agree at
every `G`-step hold along the same runs. -/
theorem everyStep_congr {Inv : σ → Prop} {G P Q : σ → ε → Prop}
    (hstep : ∀ s e, Inv s → G s e → Inv (step s e))
    (hPQ : ∀ s e, Inv s → G s e → (P s e ↔ Q s e)) {s : σ} {es : List ε} (hs : Inv s)
    (hG : EveryStep step G s es) : EveryStep step P s es ↔ EveryStep step Q s es := by
  induction es generalizing s with
  | nil => exact Iff.rfl
  | cons e es ih => exact and_congr (hPQ s e hs hG.1) (ih (hstep s e hs hG.1) hG.2)

/-- Two state properties that agree under an invariant hold along the same runs. -/
theorem everyState_congr {Inv P Q : σ → Prop} {G : σ → ε → Prop}
    (hstep : ∀ s e, Inv s → G s e → Inv (step s e)) (hPQ : ∀ s, Inv s → (P s ↔ Q s)) {s : σ}
    {es : List ε} (hs : Inv s) (hG : EveryStep step G s es) :
    EveryState step P s es ↔ EveryState step Q s es := by
  induction es generalizing s with
  | nil => exact hPQ s hs
  | cons e es ih => exact and_congr (hPQ s hs) (ih (hstep s e hs hG.1) hG.2)

theorem EveryState.imp₂ {P Q R : σ → Prop} (h : ∀ s, P s → Q s → R s) {s : σ} {es : List ε}
    (hP : EveryState step P s es) (hQ : EveryState step Q s es) : EveryState step R s es := by
  induction es generalizing s with
  | nil => exact h s hP hQ
  | cons e es ih => exact ⟨h s hP.1 hQ.1, ih hP.2 hQ.2⟩

theorem EveryState.head {P : σ → Prop} {s : σ} {es : List ε} (h : EveryState step P s es) :
    P s := by
  cases es with
  | nil => exact h
  | cons e es => exact h.1

theorem EveryState.last {P : σ → Prop} {s : σ} {es : List ε} (h : EveryState step P s es) :
    P (run step s es) := by
  induction es generalizing s with
  | nil => exact h
  | cons e es ih => exact ih h.2

/-- A property of every state holds in every state after any of its events. -/
theorem EveryState.everyCut {P : σ → Prop} {s : σ} {es : List ε} (h : EveryState step P s es) :
    EveryCut step (fun s e es => EveryState step P (step s e) es) s es := by
  induction es generalizing s with
  | nil => trivial
  | cons e es ih => exact ⟨h.2, ih h.2⟩

theorem EveryCut.imp {P Q : σ → ε → List ε → Prop} (h : ∀ s e es, P s e es → Q s e es) {s : σ}
    {es : List ε} (hP : EveryCut step P s es) : EveryCut step Q s es := by
  induction es generalizing s with
  | nil => trivial
  | cons e es ih => exact ⟨h s e es hP.1, ih hP.2⟩

/-- Where, under an invariant, `P` survives a step exactly when the step meets `C`,
`P` holds in every state of a run exactly when every step meets `C`. -/
theorem everyState_iff_everyStep {Inv P : σ → Prop} {G C : σ → ε → Prop}
    (hstep : ∀ s e, Inv s → G s e → Inv (step s e))
    (hPC : ∀ s e, Inv s → G s e → P s → (P (step s e) ↔ C s e)) {s : σ} {es : List ε}
    (hs : Inv s) (hP : P s) (hG : EveryStep step G s es) :
    EveryState step P s es ↔ EveryStep step C s es := by
  induction es generalizing s with
  | nil => exact iff_of_true hP trivial
  | cons e es ih =>
    have hhead := hPC s e hs hG.1 hP
    constructor
    · rintro ⟨-, htail⟩
      have hnext := htail.head
      exact ⟨hhead.mp hnext, (ih (hstep s e hs hG.1) hnext hG.2).mp htail⟩
    · rintro ⟨hC, htail⟩
      have hnext := hhead.mpr hC
      exact ⟨hP, (ih (hstep s e hs hG.1) hnext hG.2).mpr htail⟩

/-- Events in the order of their times meet a clock that is not ahead of them,
when the clock shows the time of the last event. -/
theorem everyStep_clock {τ : Type*} {R : τ → τ → Prop} (clock : σ → τ) (time : ε → τ)
    (hclock : ∀ s e, clock (step s e) = time e) {s : σ} {es : List ε}
    (hstart : ∀ e ∈ es, R (clock s) (time e))
    (hsorted : es.Pairwise fun a b => R (time a) (time b)) :
    EveryStep step (fun s e => R (clock s) (time e)) s es := by
  induction es generalizing s with
  | nil => trivial
  | cons e es ih =>
    obtain ⟨hfirst, hrest⟩ := List.pairwise_cons.mp hsorted
    refine ⟨hstart e List.mem_cons_self, ih (fun e' he' => ?_) hrest⟩
    rw [hclock]
    exact hfirst e' he'

end

/-! ## Simulation -/

/-- **Forward simulation along a run**: when every pair of steps keeps a
relation, related states are related after the same run. -/
theorem run_simulation {σ τ ε : Type*} {step : σ → ε → σ} {step' : τ → ε → τ}
    {R : σ → τ → Prop} (hstep : ∀ s t e, R s t → R (step s e) (step' t e)) {s : σ} {t : τ}
    (hR : R s t) (es : List ε) : R (run step s es) (run step' t es) := by
  induction es generalizing s t with
  | nil => exact hR
  | cons e es ih => exact ih (hstep s t e hR)

/-- What is so of every step of a run is so of every step of one it simulates. -/
theorem EveryStep.of_simulation {σ τ ε : Type*} {step : σ → ε → σ} {step' : τ → ε → τ}
    {R : σ → τ → Prop} {P : σ → ε → Prop} {Q : τ → ε → Prop}
    (hstep : ∀ s t e, R s t → R (step s e) (step' t e)) (hPQ : ∀ s t e, R s t → P s e → Q t e)
    {s : σ} {t : τ} (hR : R s t) {es : List ε} (h : EveryStep step P s es) :
    EveryStep step' Q t es := by
  induction es generalizing s t with
  | nil => trivial
  | cons e es ih => exact ⟨hPQ s t e hR h.1, ih (hstep s t e hR) h.2⟩

end Nyet.Lib
