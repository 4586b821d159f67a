import Nyet.Proxy.GravityRace

/-!
# Whether a learned block outlives a reload

A gravity thread inserts a confirmed domain into the live tree and appends it to
`learned.tsv` later. The reload thread reads the files into a tree of its own and
swaps it in later. A domain that is inserted before the swap and appended after the
read is in neither, and being DONE it is never asked about again.
`learned_blocks_survive` says that this is all that can go wrong, and
`appended_in_builder` that an append before the read is enough.
-/

namespace Nyet

/-- The path has a BLOCKED entry. -/
def BlockMap.BlockedAt (M : BlockMap) (ls : List Label) : Prop :=
  ∃ e, M ls = some e ∧ e.status = .blocked

/-- The path has an entry of another status. -/
def BlockMap.OtherwiseAt (M : BlockMap) (ls : List Label) : Prop :=
  ∃ e, M ls = some e ∧ e.status ≠ .blocked

/-- The threads, the domains inserted as BLOCKED, those of them that were marked DONE
since, and what the files said that were swapped in last. -/
structure Learning where
  confirmed : Confirming
  done : List CStr
  files : BlockMap

/-- The threads. -/
def Learning.threads (s : Learning) : Threads := s.confirmed.threads

/-- The domain a move marks DONE after the Pi has confirmed it. -/
def Threads.marksDone (s : Threads) : Move → Option CStr
  | .markDone i =>
    match s.checks[i]? with
    | some ⟨domain, .finishing .blocked⟩ => some domain
    | _ => none
  | _ => none

/-- One move. -/
def Learning.step (score : Scorer) (s : Learning) (m : Move) : Learning :=
  { confirmed := s.confirmed.step score m
    done := (s.threads.marksDone m).toList ++ s.done
    files := match s.threads.swapsIn m with
      | some t => t.map
      | none => s.files }

/-- No check is confirmed, and nothing was swapped in yet. -/
def Learning.start (threads : Threads) : Learning := ⟨.start threads, [], fun _ => none⟩

/-- Every gravity thread has ended, and so has the reload. -/
def Threads.Finished (s : Threads) : Prop := s.checks = [] ∧ s.reload = .idle

/-- **Learned blocks survive**: once all threads have finished, every domain that was
confirmed and marked DONE has a BLOCKED entry, unless the files give it another
status. -/
def LearnedSurvive (s : Learning) : Prop :=
  s.threads.Finished → ∀ d ∈ s.done,
    s.threads.tree.map.BlockedAt (normalise d) ∨ s.files.OtherwiseAt (normalise d)

/-- The condition: a confirmed domain finds memory in the tree, and a tree that is
swapped in has an entry for every domain inserted so far. -/
def SwapKeeps (score : Scorer) (s : Learning) (m : Move) : Prop :=
  (∀ a domain e, s.threads.liveInsert score m = some (a, domain, e) →
    (radixTreeInsertLive a s.threads.tree domain e).1 = 0) ∧
  ∀ t, s.threads.swapsIn m = some t → ∀ d ∈ s.confirmed.confirmed, t.map (normalise d) ≠ none

instance (score : Scorer) (s : Learning) (m : Move) : Decidable (SwapKeeps score s m) :=
  decidable_of_iff
    ((∀ i ∈ s.threads.liveInsert score m,
        (radixTreeInsertLive i.1 s.threads.tree i.2.1 i.2.2).1 = 0) ∧
      ∀ t ∈ s.threads.swapsIn m, ∀ d ∈ s.confirmed.confirmed, t.map (normalise d) ≠ none)
    (and_congr ⟨fun h a domain e hlive => h (a, domain, e) hlive,
      fun h i hlive => h i.1 i.2.1 i.2.2 hlive⟩ Iff.rfl)

/-- The move is a worker's. -/
def Move.ofWorker : Move → Bool
  | .lookupCache _ _ _ => true
  | .lookupTree _ _ => true
  | .storeVerdict _ _ => true
  | .flag _ _ _ => true
  | .claim _ _ => true
  | .queue _ _ _ => true
  | _ => false

/-! ## The invariant -/

/-- The thread is past its insert. -/
def CheckStage.isPast : CheckStage → Bool
  | .inserted _ _ => true
  | .invalidated _ _ => true
  | .finishing .blocked => true
  | _ => false

/-- What was inserted is BLOCKED still or was overruled by the files; and a thread
past its insert has inserted. -/
structure Learning.Inv (s : Learning) : Prop where
  kept : ∀ d ∈ s.confirmed.confirmed,
    s.threads.tree.map.BlockedAt (normalise d) ∨ s.files.OtherwiseAt (normalise d)
  past : ∀ c ∈ s.threads.checks, c.stage.isPast = true → c.domain ∈ s.confirmed.confirmed
  done : ∀ d ∈ s.done, d ∈ s.confirmed.confirmed

theorem BlockMap.BlockedAt.of_core {M N : BlockMap} (h : M.core = N.core) {ls : List Label}
    (hM : M.BlockedAt ls) : N.BlockedAt ls := by
  obtain ⟨e, he, hst⟩ := hM
  have hcore : (M ls).map Entry.core = (N ls).map Entry.core := congrFun h ls
  rw [he, Option.map_some] at hcore
  obtain ⟨e', he', heq⟩ := Option.map_eq_some_iff.mp hcore.symm
  refine ⟨e', he', ?_⟩
  rw [← Entry.core_status, heq]
  exact hst

/-! ## What a move can do to a gravity thread -/

section

variable {score : Scorer} {s : Threads} {m : Move}

/-- A thread is past its insert because it was before, or because the move is its
insert. -/
theorem Threads.step_past {c : GravityCheck} (h : c ∈ (s.step score m).checks)
    (hpast : c.stage.isPast = true) :
    (∃ c' ∈ s.checks, c'.domain = c.domain ∧ c'.stage.isPast = true) ∨
      ∃ a now, s.liveInsert score m = some (a, c.domain, gravityEntry now) := by
  rcases Threads.step_check h with hold | hturn
  · exact Or.inl ⟨c, hold, rfl, hpast⟩
  · cases hturn with
    | queued | confirmed => cases hpast
    | @answered i result d hi hresult =>
      cases result with
      | blocked => exact absurd rfl hresult
      | clean | unreachable => cases hpast
    | @inserted i a now d hi => exact Or.inr ⟨a, now, by simp [Threads.liveInsert, hi]⟩
    | invalidated hi => exact Or.inl ⟨_, List.mem_of_getElem? hi, rfl, hpast⟩
    | appended hi => exact Or.inl ⟨_, List.mem_of_getElem? hi, rfl, hpast⟩

/-- Without workers a live insert is a gravity thread's. -/
theorem Threads.liveInsert_confirms {a : Alloc} {domain : CStr} {e : Entry}
    (hlive : s.liveInsert score m = some (a, domain, e)) (hworker : m.ofWorker = false)
    (hrc : (radixTreeInsertLive a s.tree domain e).1 = 0) :
    s.confirms m = some domain ∧ e.status = .blocked := by
  unfold Threads.liveInsert at hlive
  split at hlive
  · cases hworker
  · split at hlive
    · next hi =>
      cases hlive
      exact ⟨by simp [Threads.confirms, hi, gravityInsert, hrc], rfl⟩
    · cases hlive
  · cases hlive

end

/-! ## One move -/

theorem Learning.Inv.start {threads : Threads} (h : ∀ c ∈ threads.checks, c.stage = .asking) :
    (Learning.start threads).Inv := by
  refine ⟨fun d hd => (nomatch hd), fun c hc hpast => ?_, fun d hd => (nomatch hd)⟩
  rw [h c hc] at hpast
  cases hpast

theorem Learning.step_files {score : Scorer} {s : Learning} {m : Move}
    (h : s.threads.swapsIn m = none) : (s.step score m).files = s.files := by
  rw [Learning.step]
  rw [h]

/-- A domain inserted before stays BLOCKED or overruled. -/
theorem Learning.Inv.step_kept {score : Scorer} {s : Learning} {m : Move} (h : s.Inv)
    (hworker : m.ofWorker = false) (hkeeps : SwapKeeps score s m) {d : CStr}
    (hd : d ∈ s.confirmed.confirmed) :
    (s.step score m).threads.tree.map.BlockedAt (normalise d) ∨
      (s.step score m).files.OtherwiseAt (normalise d) := by
  obtain ⟨hmemory, hswapped⟩ := hkeeps
  -- a swap brings the tree of the files, which has an entry for the domain
  cases hswap : s.threads.swapsIn m with
  | some t =>
    have htree : (s.step score m).threads.tree = t := Threads.step_swapsIn hswap
    have hfiles : (s.step score m).files = t.map := by
      rw [Learning.step]
      rw [hswap]
    rw [htree, hfiles]
    obtain ⟨e, he⟩ := Option.ne_none_iff_exists'.mp (hswapped t hswap d hd)
    by_cases hst : e.status = .blocked
    · exact Or.inl ⟨e, he, hst⟩
    · exact Or.inr ⟨e, he, hst⟩
  | none =>
    rw [Learning.step_files hswap]
    cases hlive : s.threads.liveInsert score m with
    | none =>
      have hcore : (s.step score m).threads.tree.map.core = s.threads.tree.map.core :=
        Threads.step_tree_core hlive hswap
      exact (h.kept d hd).imp_left (.of_core hcore.symm)
    | some inserted =>
      obtain ⟨a, domain, e⟩ := inserted
      have hrc := hmemory a domain e hlive
      obtain ⟨-, hblocked⟩ := Threads.liveInsert_confirms hlive hworker hrc
      have htree : (s.step score m).threads.tree =
          (radixTreeInsertLive a s.threads.tree domain e).2 := Threads.step_liveInsert hlive
      rw [htree]
      -- an insert for another path leaves this one alone
      by_cases hpath : normalise d = normalise domain
      · rw [hpath]
        exact Or.inl ⟨e, (radixTreeInsertLive_done hrc).2, hblocked⟩
      · rw [BlockMap.BlockedAt]
        rw [radixTreeInsertLive_other a s.threads.tree e fun _ => hpath]
        exact h.kept d hd

/-- **One move keeps the invariant**, if it meets the condition. -/
theorem Learning.Inv.step {score : Scorer} {s : Learning} {m : Move} (h : s.Inv)
    (hworker : m.ofWorker = false) (hkeeps : SwapKeeps score s m) : (s.step score m).Inv := by
  refine ⟨?_, ?_, ?_⟩
  · intro d hd
    rcases List.mem_append.mp hd with hnew | hold
    · -- inserted by this very move
      obtain ⟨a, e, hlive, hblocked, hrc⟩ :=
        Threads.confirms_some score (Option.mem_toList.mp hnew)
      have htree : (s.step score m).threads.tree = _ := Threads.step_liveInsert hlive
      rw [htree]
      exact Or.inl ⟨e, (radixTreeInsertLive_done hrc).2, hblocked⟩
    · exact h.step_kept hworker hkeeps hold
  · intro c hc hpast
    rcases Threads.step_past hc hpast with ⟨c', hc', hdomain, hpast'⟩ | ⟨a, now, hlive⟩
    · exact List.mem_append_right _ (hdomain ▸ h.past c' hc' hpast')
    · obtain ⟨hconfirms, -⟩ := Threads.liveInsert_confirms hlive hworker (hkeeps.1 _ _ _ hlive)
      exact List.mem_append_left _ (Option.mem_toList.mpr hconfirms)
  · intro d hd
    rcases List.mem_append.mp hd with hnew | hold
    · refine List.mem_append_right _ ?_
      have hmark := Option.mem_toList.mp hnew
      unfold Threads.marksDone at hmark
      split at hmark
      · split at hmark
        · next hi =>
          cases hmark
          exact h.past _ (List.mem_of_getElem? hi) rfl
        · cases hmark
      · cases hmark
    · exact List.mem_append_right _ (h.done d hold)

/-- **When learned blocks survive.** In every interleaving of gravity threads and
reloads that meets the condition, once all threads have finished, every domain that
was confirmed and marked DONE has a BLOCKED entry, unless the files last swapped in
give it another status. -/
theorem learned_blocks_survive (score : Scorer) (threads : Threads)
    (hasking : ∀ c ∈ threads.checks, c.stage = .asking) {ms : List Move}
    (hworker : ∀ m ∈ ms, m.ofWorker = false)
    (hkeeps : Lib.EveryStep (Learning.step score) (SwapKeeps score) (.start threads) ms) :
    Lib.EveryState (Learning.step score) LearnedSurvive (.start threads) ms := by
  have hstep : ∀ (s : Learning) m, s.Inv → m.ofWorker = false ∧ SwapKeeps score s m →
      (s.step score m).Inv := fun _ _ h hm => h.step hm.1 hm.2
  have hsurvive : ∀ s : Learning, s.Inv → LearnedSurvive s :=
    fun _ h _ d hd => h.kept d (h.done d hd)
  exact .of_invariant hstep hsurvive (.start hasking)
    (Lib.EveryStep.and (Lib.everyStep_of_mem (fun _ => hworker) _) hkeeps)

/-- A worker has queued a check of the domain. -/
def Threads.checking : Threads :=
  Lib.run (Threads.step fun _ => (0, [])) .empty
    (lookupMoves 0 raceDomain ++ [.flag 0 [] 0, .claim 0 [], .queue 0 true true])

/-- The rest of a confirmed check, after its insert. -/
def persistMoves : List Move := [.invalidate 0, .append 0 true, .markDone 0]

/-- The reload reads the files. -/
def readMoves : List Move := [.startReload [], .readBlocklist none 0, .readLearned 0]

/-- The rest of the reload. -/
def swapMoves : List Move := [.swap, .clearVerdicts, .clearAnswers]

/-- The check has ended when the files are read. -/
theorem learned_blocks_survive_in_turn :
    Lib.EveryState (Learning.step fun _ => (0, [])) LearnedSurvive (.start .checking)
      ([.answer 0 .blocked, .insert 0 [] 0] ++ persistMoves ++ readMoves ++ swapMoves) :=
  learned_blocks_survive _ _ (by decide +kernel) (by decide) (by decide +kernel)

/-- The files are read before the insert and swapped in before the append. -/
def lostBlock : List Move :=
  [.answer 0 .blocked] ++ readMoves ++ [.insert 0 [] 0] ++ swapMoves ++ persistMoves

/-- All threads have finished; the domain is DONE, and neither in the tree nor in what
was read. -/
theorem lostBlock_reached :
    let s := Lib.run (Learning.step fun _ => (0, [])) (.start .checking) lostBlock
    s.threads.checks = [] ∧ (match s.threads.reload with | .idle => true | _ => false) = true ∧
      s.done = [raceDomain] ∧ s.threads.tree.map (normalise raceDomain) = none ∧
      s.files (normalise raceDomain) = none := by
  decide +kernel

theorem learned_block_lost :
    ¬ Lib.EveryState (Learning.step fun _ => (0, [])) LearnedSurvive (.start .checking)
      lostBlock := by
  intro h
  have hlast := h.last
  obtain ⟨hchecks, hreload, hdone, htree, hfiles⟩ := lostBlock_reached
  generalize Lib.run (Learning.step fun _ => (0, [])) (.start .checking) lostBlock = s
    at hlast hchecks hreload hdone htree hfiles
  have hidle : s.threads.reload = .idle := by
    cases hstage : s.threads.reload with
    | idle => rfl
    | started | halfRead | read | swapped | cleared =>
      rw [hstage] at hreload
      cases hreload
  have hmem : raceDomain ∈ s.done := by
    rw [hdone]
    exact List.mem_singleton_self _
  rcases hlast ⟨hchecks, hidle⟩ raceDomain hmem with ⟨e, he, -⟩ | ⟨e, he, -⟩
  · rw [htree] at he
    cases he
  · rw [hfiles] at he
    cases he

/-! ## Appending before the read -/

/-- The threads, the domains appended to `learned.tsv` so far, and those of them that
were there when the reload read it. -/
structure Persisting where
  threads : Threads
  appended : List CStr
  atRead : List CStr

/-- The domain a move appends to `learned.tsv`. -/
def Threads.appends (s : Threads) : Move → Option CStr
  | .append i true =>
    match s.checks[i]? with
    | some ⟨domain, .invalidated rc _⟩ => if rc = 0 then some domain else none
    | _ => none
  | _ => none

/-- The move reads `learned.tsv`. -/
def Threads.readsLearned (s : Threads) (m : Move) : Bool :=
  match m, s.reload with
  | .readLearned _, .halfRead _ => true
  | _, _ => false

/-- One move. -/
def Persisting.step (score : Scorer) (s : Persisting) (m : Move) : Persisting :=
  { threads := s.threads.step score m
    appended := (s.threads.appends m).toList ++ s.appended
    atRead := if s.threads.readsLearned m then s.appended else s.atRead }

/-- Nothing was appended yet. -/
def Persisting.start (threads : Threads) : Persisting := ⟨threads, [], []⟩

/-- A builder has a root, and once it has read `learned.tsv` an entry for each domain
that was there. -/
def ReloadStage.Holds (atRead : List CStr) : ReloadStage → Prop
  | .started b => b.root.isSome = true
  | .halfRead b => b.root.isSome = true
  | .read b => ∀ d ∈ atRead, b.map (normalise d) ≠ none
  | _ => True

/-- The file consists of whole lines, one for each domain appended. -/
structure Persisting.Inv (s : Persisting) : Prop where
  names : ∀ c ∈ s.threads.checks, WireName maxDomainLen c.domain ∧ c.domain ≠ []
  whole : EndsInNewline (s.threads.learned.getD [])
  rows : ∀ d ∈ s.appended, Insertable d ∧
    ∀ now, ∃ row ∈ rowsOf now s.threads.learned, row.domain = d
  builder : s.threads.reload.Holds s.atRead

section

variable {score : Scorer} {s : Threads} {m : Move}

/-- Without workers no check is new. -/
theorem Threads.step_domain (hworker : m.ofWorker = false) {c : GravityCheck}
    (h : c ∈ (s.step score m).checks) : ∃ c' ∈ s.checks, c'.domain = c.domain := by
  rcases Threads.step_check h with hold | hturn
  · exact ⟨c, hold, rfl⟩
  · cases hturn with
    | queued => cases hworker
    | confirmed hi | answered hi _ | inserted hi | invalidated hi | appended hi =>
      exact ⟨_, List.mem_of_getElem? hi, rfl⟩

/-- The file grows by the line of the domain appended. -/
theorem Threads.step_appends (score : Scorer) {d : CStr} (h : s.appends m = some d) :
    (∃ c ∈ s.checks, c.domain = d) ∧ ∃ now, (s.step score m).learned =
      appendLearnedEntry true s.learned .blocked .piGravity now now 1 0 d := by
  unfold Threads.appends at h
  split at h
  · split at h
    · next domain rc now hi =>
      split at h
      · next hrc =>
        cases h
        refine ⟨⟨_, List.mem_of_getElem? hi, rfl⟩, now, ?_⟩
        simp [Threads.step, Threads.append, hi, hrc, Threads.checkAt]
      · cases h
    · cases h
  · cases h

theorem Threads.step_learned (h : s.appends m = none) : (s.step score m).learned = s.learned := by
  cases m with
  | append i openOk =>
    show (s.append i openOk).learned = s.learned
    rw [Threads.append]
    split
    · next domain rc now hi =>
      show (if rc = 0 then _ else s.learned) = s.learned
      by_cases hrc : rc = 0
      · rw [if_pos hrc]
        cases openOk with
        | true => simp [Threads.appends, hi, hrc] at h
        | false => rfl
      · rw [if_neg hrc]
    · rfl
  | lookupCache | lookupTree | storeVerdict | flag | claim | queue | answer | insert | invalidate
  | markDone | startReload | readBlocklist | readLearned | swap | clearVerdicts | clearAnswers =>
    simp only [Threads.step, Threads.lookupCache, Threads.lookupTree, Threads.storeVerdict,
      Threads.flag, Threads.claim, Threads.queue, Threads.answer, Threads.insert,
      Threads.invalidate, Threads.markDone, Threads.startReload, Threads.readBlocklist,
      Threads.readLearned, Threads.swap, Threads.clearVerdicts, Threads.clearAnswers]
    split <;> rfl

/-- How the reload thread got to where it is. -/
theorem Threads.step_reload :
    (s.step score m).reload = s.reload ∧ s.readsLearned m = false ∨
    (∃ a b, radixBuilderInit a = some b ∧ (s.step score m).reload = .started b) ∨
    (∃ b file now, s.reload = .started b ∧
      (s.step score m).reload = .halfRead (loadBlocklist now b file).2) ∨
    (∃ b now, s.reload = .halfRead b ∧ s.readsLearned m = true ∧
      (s.step score m).reload = .read (loadBlocklist now b s.learned).2) ∨
    (s.step score m).reload = .swapped ∨ (s.step score m).reload = .cleared ∨
    (s.step score m).reload = .idle := by
  cases m with
  | startReload a =>
    simp only [Threads.step, Threads.startReload]
    split
    · next b _ hb => exact Or.inr (Or.inl ⟨a, b, hb, rfl⟩)
    · exact Or.inl ⟨rfl, rfl⟩
  | readBlocklist file now =>
    simp only [Threads.step, Threads.readBlocklist]
    split
    · next b hb => exact Or.inr (Or.inr (Or.inl ⟨b, file, now, hb, rfl⟩))
    · exact Or.inl ⟨rfl, rfl⟩
  | readLearned now =>
    cases hreload : s.reload with
    | halfRead b =>
      refine Or.inr (Or.inr (Or.inr (Or.inl ⟨b, now, rfl, ?_, ?_⟩)))
      · simp [Threads.readsLearned, hreload]
      · simp [Threads.step, Threads.readLearned, hreload]
    | idle | started | read | swapped | cleared =>
      left
      simp [Threads.step, Threads.readLearned, Threads.readsLearned, hreload]
  | swap =>
    simp only [Threads.step, Threads.swap]
    split
    · exact Or.inr (Or.inr (Or.inr (Or.inr (Or.inl rfl))))
    · exact Or.inl ⟨rfl, rfl⟩
  | clearVerdicts =>
    simp only [Threads.step, Threads.clearVerdicts]
    split
    · exact Or.inr (Or.inr (Or.inr (Or.inr (Or.inr (Or.inl rfl)))))
    · exact Or.inl ⟨rfl, rfl⟩
  | clearAnswers =>
    simp only [Threads.step, Threads.clearAnswers]
    split
    · exact Or.inr (Or.inr (Or.inr (Or.inr (Or.inr (Or.inr rfl)))))
    · exact Or.inl ⟨rfl, rfl⟩
  -- workers and gravity threads never touch the reload
  | lookupCache | lookupTree | storeVerdict | flag | claim | queue | answer | insert | invalidate
  | append | markDone =>
    left
    simp only [Threads.step, Threads.lookupCache, Threads.lookupTree, Threads.storeVerdict,
      Threads.flag, Threads.claim, Threads.queue, Threads.answer, Threads.insert,
      Threads.invalidate, Threads.append, Threads.markDone]
    split <;> exact ⟨rfl, rfl⟩

end

theorem radixBuilderInit_isSome {a : Alloc} {b : RadixTreeBuilder}
    (h : radixBuilderInit a = some b) : b.root.isSome = true := by
  rw [radixBuilderInit] at h
  split at h
  · cases h
  · split at h
    · cases h
    · cases h
      rfl

theorem Persisting.Inv.start {threads : Threads} (hreload : threads.reload = .idle)
    (hnames : ∀ c ∈ threads.checks, WireName maxDomainLen c.domain ∧ c.domain ≠ [])
    (hwhole : EndsInNewline (threads.learned.getD [])) : (Persisting.start threads).Inv := by
  refine ⟨hnames, hwhole, fun d hd => (nomatch hd), ?_⟩
  rw [show (Persisting.start threads).threads.reload = .idle from hreload]
  trivial

theorem Persisting.Inv.step_file {s : Persisting} (h : s.Inv) (score : Scorer) (m : Move) :
    EndsInNewline ((s.step score m).threads.learned.getD []) ∧
    ∀ d ∈ (s.step score m).appended, Insertable d ∧
      ∀ now, ∃ row ∈ rowsOf now (s.step score m).threads.learned, row.domain = d := by
  cases happends : s.threads.appends m with
  | none =>
    have hlearned : (s.step score m).threads.learned = s.threads.learned :=
      Threads.step_learned happends
    have happended : (s.step score m).appended = s.appended := by
      simp [Persisting.step, happends]
    rw [hlearned, happended]
    exact ⟨h.whole, h.rows⟩
  | some domain =>
    obtain ⟨⟨c, hc, hdomain⟩, now, hlearned⟩ := Threads.step_appends score happends
    obtain ⟨hname, hne⟩ := hdomain ▸ h.names c hc
    have happended : (s.step score m).appended = domain :: s.appended := by
      simp [Persisting.step, happends]
    -- the file ended in a newline before, so the line that is appended is read as its own row
    have hfile := fun time : UInt32 => rowsOf_appendLearnedEntry time .blocked .piGravity now now 0
      (show (1 : UInt32).toNat < 2 ^ 31 by decide) hname hne h.whole
    rw [show (s.step score m).threads.learned = _ from hlearned, happended]
    refine ⟨(hfile 0).2, fun d hd => ?_⟩
    rcases List.mem_cons.mp hd with rfl | hold
    · refine ⟨hname.insertable hne, fun time => ?_⟩
      rw [(hfile time).1]
      exact ⟨_, List.mem_append_right _ (List.mem_singleton_self _), rfl⟩
    · obtain ⟨hins, hrows⟩ := h.rows d hold
      refine ⟨hins, fun time => ?_⟩
      obtain ⟨row, hrow, hd⟩ := hrows time
      rw [(hfile time).1]
      exact ⟨row, List.mem_append_left _ hrow, hd⟩

/-- **One move keeps the invariant.** -/
theorem Persisting.Inv.step {score : Scorer} {s : Persisting} {m : Move} (h : s.Inv)
    (hworker : m.ofWorker = false) : (s.step score m).Inv := by
  obtain ⟨hwhole, hrows⟩ := h.step_file score m
  refine ⟨fun c hc => ?_, hwhole, hrows, ?_⟩
  · obtain ⟨c', hc', hdomain⟩ := Threads.step_domain hworker hc
    exact hdomain ▸ h.names c' hc'
  · have hbuilder := h.builder
    show (s.threads.step score m).reload.Holds (if s.threads.readsLearned m then _ else _)
    rcases @Threads.step_reload score s.threads m with
      ⟨hsame, hno⟩ | ⟨a, b, hb, hstage⟩ | ⟨b, file, now, hb, hstage⟩ | ⟨b, now, hb, hreads, hstage⟩ |
      hstage | hstage | hstage
    · rw [hsame, hno]
      exact hbuilder
    · rw [hstage]
      exact radixBuilderInit_isSome hb
    · rw [hb] at hbuilder
      rw [hstage]
      exact insertRows_isSome hbuilder _
    · -- what was appended by now is among the rows
      rw [hb] at hbuilder
      rw [hstage, hreads]
      intro d hd
      obtain ⟨hins, hread⟩ := h.rows d hd
      obtain ⟨row, hrow, rfl⟩ := hread now
      exact insertRows_mem hbuilder hrow hins
    all_goals
      rw [hstage]
      trivial

/-- **Appending before the read is enough**: a tree that is swapped in has an entry for
every domain that was appended when `learned.tsv` was read. -/
theorem appended_in_builder (score : Scorer) {threads : Threads} (hreload : threads.reload = .idle)
    (hnames : ∀ c ∈ threads.checks, WireName maxDomainLen c.domain ∧ c.domain ≠ [])
    (hwhole : EndsInNewline (threads.learned.getD [])) {ms : List Move}
    (hworker : ∀ m ∈ ms, m.ofWorker = false) {m : Move} {t : RadixTree}
    (hswap : (Lib.run (Persisting.step score) (.start threads) ms).threads.swapsIn m = some t) :
    ∀ d ∈ (Lib.run (Persisting.step score) (.start threads) ms).atRead,
      t.map (normalise d) ≠ none := by
  have hinv : (Lib.run (Persisting.step score) (.start threads) ms).Inv :=
    Lib.run_invariant_of_everyStep (fun _ _ h hm => Persisting.Inv.step h hm)
      (Persisting.Inv.start hreload hnames hwhole) (Lib.everyStep_of_mem (fun _ => hworker) _)
  generalize Lib.run (Persisting.step score) (.start threads) ms = s at hswap hinv
  have hbuilder := hinv.builder
  unfold Threads.swapsIn at hswap
  split at hswap
  · split at hswap
    · next b hb =>
      cases hswap
      rw [hb] at hbuilder
      intro d hd
      rw [radixTreeSwap_map]
      exact hbuilder d hd
    · cases hswap
  · cases hswap

end Nyet
