import Nyet.Packet.Labels
import Nyet.Proxy.Threads

/-!
# What one move can do

Every invariant of the threads is about some of what they share or about where one of them stands.
What a move can do is said here once for each of these: to the tree, by a live insert, a swap or a
lookup (`Threads.step_liveInsert`, `Threads.step_swapsIn`, `Threads.step_tree`), to the verdict
cache (`Threads.step_says`), to a worker (`Threads.step_worker`) and to a check
(`Threads.step_check`). All names the threads work on are those of questions
(`Threads.Named.step`).
-/

namespace Nyet

section

variable {score : Scorer} {s : Threads}

/-! ## What a move can do to the tree -/

/-- The `radix_tree_insert_live` a move runs: allocator, domain and entry. -/
def Threads.liveInsert (score : Scorer) (s : Threads) : Move → Option (Alloc × CStr × Entry)
  | .flag w a now =>
    match s.worker w with
    | .unmatched domain => some (a, domain, reviewEntry now (score domain).1 (score domain).2)
    | _ => none
  | .insert i a now =>
    match s.checks[i]? with
    | some ⟨domain, .confirmed⟩ => some (a, domain, gravityEntry now)
    | _ => none
  | _ => none

variable {m : Move} {a : Alloc} {domain : CStr} {e : Entry}

/-- It is a REVIEW entry with a note or a BLOCKED one without. -/
theorem Threads.liveInsert_entry (h : s.liveInsert score m = some (a, domain, e)) :
    (e.status = .review ∧ e.note.isSome = true) ∨ (e.status = .blocked ∧ e.note = none) := by
  unfold Threads.liveInsert at h
  split at h
  · split at h
    · cases h
      exact Or.inl ⟨rfl, rfl⟩
    · cases h
  · split at h
    · cases h
      exact Or.inr ⟨rfl, rfl⟩
    · cases h
  · cases h

theorem Threads.step_liveInsert (h : s.liveInsert score m = some (a, domain, e)) :
    (s.step score m).tree = (radixTreeInsertLive a s.tree domain e).2 := by
  unfold Threads.liveInsert at h
  split at h
  · split at h
    · next hw =>
      cases h
      simp [Threads.step, Threads.flag, hw, Threads.at, runHeuristics, flagForReview]
    · cases h
  · split at h
    · next hi =>
      cases h
      simp [Threads.step, Threads.insert, hi, Threads.checkAt, gravityInsert]
    · cases h
  · cases h

/-- The tree a move swaps in. -/
def Threads.swapsIn (s : Threads) : Move → Option RadixTree
  | .swap =>
    match s.reload with
    | .read b => some (radixTreeSwap s.tree b).1
    | _ => none
  | _ => none

theorem Threads.step_swapsIn {t : RadixTree} (h : s.swapsIn m = some t) :
    (s.step score m).tree = t := by
  unfold Threads.swapsIn at h
  split at h
  · split at h
    · next b hb =>
      cases h
      simp [Threads.step, Threads.swap, hb]
    · cases h
  · cases h

/-- Every other move leaves the tree as it is, or as a lookup leaves it. -/
theorem Threads.step_tree (hlive : s.liveInsert score m = none) (hswap : s.swapsIn m = none) :
    (s.step score m).tree = s.tree ∨
      ∃ now domain, (s.step score m).tree = (radixLookup s.tree now domain).2 := by
  cases m with
  | lookupTree w now =>
    show (s.lookupTree w now).tree = _ ∨ ∃ now' domain, (s.lookupTree w now).tree = _
    rw [Threads.lookupTree]
    split
    · next domain hw => exact Or.inr ⟨now, domain, rfl⟩
    · exact Or.inl rfl
  | flag w a now =>
    -- a live insert is excluded, and so is a swap; each leaves only its idle branch
    left
    show (s.flag score w a now).tree = _
    rw [Threads.flag]
    split
    · next domain hw => simp [Threads.liveInsert, hw] at hlive
    · rfl
  | insert i a now =>
    left
    show (s.insert i a now).tree = _
    rw [Threads.insert]
    split
    · next domain hi => simp [Threads.liveInsert, hi] at hlive
    · rfl
  | swap =>
    left
    show s.swap.tree = _
    rw [Threads.swap]
    split
    · next b hb => simp [Threads.swapsIn, hb] at hswap
    · rfl
  | lookupCache | storeVerdict | claim | queue | answer | invalidate | append | markDone
  | startReload | readBlocklist | readLearned | clearVerdicts | clearAnswers =>
    left
    simp only [Threads.step, Threads.lookupCache, Threads.storeVerdict, Threads.claim,
      Threads.queue, Threads.answer, Threads.invalidate, Threads.append, Threads.markDone,
      Threads.startReload, Threads.readBlocklist, Threads.readLearned, Threads.clearVerdicts,
      Threads.clearAnswers]
    split <;> rfl

/-- It changes no more than bookkeeping. -/
theorem Threads.step_tree_core (hlive : s.liveInsert score m = none) (hswap : s.swapsIn m = none) :
    (s.step score m).tree.map.core = s.tree.map.core := by
  rcases Threads.step_tree hlive hswap with hsame | ⟨now, d, hlooked⟩
  · rw [hsame]
  · rw [hlooked]
    exact radixLookup_map s.tree now d

/-! ## What a move can do to the verdict cache -/

/-- What the cache can say after a move, it said before, or a worker has stored it. -/
theorem Threads.step_says {d : CStr} {action : DnsAction}
    (h : CacheSays (s.step score m).queryCache d action) :
    CacheSays s.queryCache d action ∨
      ∃ w nowNs r, m = .storeVerdict w nowNs ∧ s.worker w = .looked d r ∧
        s.queryCache.isSome = true ∧ d.length ≤ dnsCacheMaxDomainLen ∧
        ∃ st, r.outcome = some st ∧ st ≠ .review ∧ action = st.cacheAction := by
  cases m with
  | lookupCache w domain nowNs =>
    left
    simp only [Threads.step, Threads.lookupCache] at h
    split at h
    · exact checkCached_verdicts.mp h
    · exact h
  -- only a stored verdict adds to what the cache says
  | storeVerdict w nowNs =>
    simp only [Threads.step, Threads.storeVerdict] at h
    split at h
    · next domain r hw =>
      rcases cacheVerdict_verdicts h with hold | ⟨rfl, hlen, hst⟩
      · exact Or.inl hold
      · refine Or.inr ⟨w, nowNs, r, rfl, hw, ?_, hlen, hst⟩
        cases hcache : s.queryCache with
        | none =>
          rw [hcache] at h
          obtain ⟨c, hc, -⟩ := h
          cases hc
        | some c => rfl
    · exact Or.inl h
  | clearVerdicts =>
    left
    simp only [Threads.step, Threads.clearVerdicts] at h
    split at h
    · obtain ⟨c, hc, hsays⟩ := h
      obtain ⟨c', -, rfl⟩ := Option.map_eq_some_iff.mp hc
      exact absurd hsays dnsCacheClear_verdicts
    · exact h
  | lookupTree | flag | claim | queue | answer | insert | invalidate | append | markDone
  | startReload | readBlocklist | readLearned | swap | clearAnswers =>
    left
    simp only [Threads.step, Threads.lookupTree, Threads.flag, Threads.claim, Threads.queue,
      Threads.answer, Threads.insert, Threads.invalidate, Threads.append, Threads.markDone,
      Threads.startReload, Threads.readBlocklist, Threads.readLearned, Threads.swap,
      Threads.clearAnswers] at h
    split at h <;> exact h

/-! ## What a move makes of a worker and of a check -/

/-- **The turns of worker `w`**: the move, where it finds the worker and where it leaves it. -/
inductive Threads.WorkerTurn (s : Threads) (w : Nat) : Move → WorkerStage → Prop where
  | missed {d : CStr} {nowNs : UInt64} (h : s.worker w = .idle) :
    WorkerTurn s w (.lookupCache w d nowNs) (.missed d)
  | looked {d : CStr} {now : UInt32} (h : s.worker w = .missed d) :
    WorkerTurn s w (.lookupTree w now) (.looked d (radixLookup s.tree now d).1)
  | unmatched {d : CStr} {r : LookupResult} {nowNs : UInt64} (h : s.worker w = .looked d r)
    (hr : r.matched = false) : WorkerTurn s w (.storeVerdict w nowNs) (.unmatched d)
  | flagged {d : CStr} {a : Alloc} {now : UInt32} (h : s.worker w = .unmatched d) :
    WorkerTurn s w (.flag w a now) (.flagged d)
  | claimed {d : CStr} {a : Alloc} (h : s.worker w = .flagged d) :
    WorkerTurn s w (.claim w a) (.claimed d)
  /-- It is done with its domain. -/
  | done {m : Move} : WorkerTurn s w m .idle

theorem Threads.at_stage {w w' : Nat} {stage stage' : WorkerStage}
    (h : (s.at w' stage').worker w = stage) : (w = w' ∧ stage' = stage) ∨ s.worker w = stage := by
  have h : Function.update s.worker w' stage' w = stage := h
  rw [Function.update_apply] at h
  split at h
  · next hw => exact Or.inl ⟨hw, h⟩
  · exact Or.inr h

section

variable {w w' : Nat} {stage : WorkerStage}

theorem Threads.lookupCache_worker {d : CStr} {nowNs : UInt64}
    (h : (s.lookupCache w' d nowNs).worker w = stage) :
    s.worker w = stage ∨ s.WorkerTurn w (.lookupCache w' d nowNs) stage := by
  simp only [Threads.lookupCache] at h
  split at h
  · next hidle =>
    rcases Threads.at_stage h with ⟨rfl, hstage⟩ | hold
    · split at hstage <;> subst hstage
      · exact Or.inr .done
      · exact Or.inr (.missed hidle)
    · exact Or.inl hold
  · exact Or.inl h

theorem Threads.lookupTree_worker {now : UInt32} (h : (s.lookupTree w' now).worker w = stage) :
    s.worker w = stage ∨ s.WorkerTurn w (.lookupTree w' now) stage := by
  simp only [Threads.lookupTree] at h
  split at h
  · next d hw =>
    rcases Threads.at_stage h with ⟨rfl, rfl⟩ | hold
    · exact Or.inr (.looked hw)
    · exact Or.inl hold
  · exact Or.inl h

theorem Threads.storeVerdict_worker {nowNs : UInt64}
    (h : (s.storeVerdict w' nowNs).worker w = stage) :
    s.worker w = stage ∨ s.WorkerTurn w (.storeVerdict w' nowNs) stage := by
  simp only [Threads.storeVerdict] at h
  split at h
  · next d r hw =>
    rcases Threads.at_stage h with ⟨rfl, hstage⟩ | hold
    · split at hstage <;> subst hstage
      · exact Or.inr .done
      · next hr => exact Or.inr (.unmatched hw (Bool.eq_false_iff.mpr hr))
    · exact Or.inl hold
  · exact Or.inl h

theorem Threads.flag_worker {a : Alloc} {now : UInt32}
    (h : (s.flag score w' a now).worker w = stage) :
    s.worker w = stage ∨ s.WorkerTurn w (.flag w' a now) stage := by
  simp only [Threads.flag] at h
  split at h
  · next d hw =>
    rcases Threads.at_stage h with ⟨rfl, rfl⟩ | hold
    · exact Or.inr (.flagged hw)
    · exact Or.inl hold
  · exact Or.inl h

theorem Threads.claim_worker {a : Alloc} (h : (s.claim w' a).worker w = stage) :
    s.worker w = stage ∨ s.WorkerTurn w (.claim w' a) stage := by
  simp only [Threads.claim] at h
  split at h
  · next d hw =>
    rcases Threads.at_stage h with ⟨rfl, hstage⟩ | hold
    · split at hstage <;> subst hstage
      · exact Or.inr (.claimed hw)
      · exact Or.inr .done
    · exact Or.inl hold
  · exact Or.inl h

theorem Threads.queue_worker {argsOk threadOk : Bool}
    (h : (s.queue w' argsOk threadOk).worker w = stage) :
    s.worker w = stage ∨ s.WorkerTurn w (.queue w' argsOk threadOk) stage := by
  simp only [Threads.queue] at h
  split at h
  · rcases Threads.at_stage h with ⟨rfl, rfl⟩ | hold
    · exact Or.inr .done
    · exact Or.inl hold
  · exact Or.inl h

/-- **A worker is where it was, or the move is its turn.** -/
theorem Threads.step_worker (h : (s.step score m).worker w = stage) :
    s.worker w = stage ∨ s.WorkerTurn w m stage := by
  cases m with
  | lookupCache w' d nowNs => exact Threads.lookupCache_worker h
  | lookupTree w' now => exact Threads.lookupTree_worker h
  | storeVerdict w' nowNs => exact Threads.storeVerdict_worker h
  | flag w' a now => exact Threads.flag_worker h
  | claim w' a => exact Threads.claim_worker h
  | queue w' argsOk threadOk => exact Threads.queue_worker h
  | answer | insert | invalidate | append | markDone | startReload | readBlocklist | readLearned
  | swap | clearVerdicts | clearAnswers =>
    -- the other threads leave the workers alone
    left
    simp only [Threads.step, Threads.answer, Threads.insert, Threads.invalidate, Threads.append,
      Threads.markDone, Threads.startReload, Threads.readBlocklist, Threads.readLearned,
      Threads.swap, Threads.clearVerdicts, Threads.clearAnswers] at h
    split at h <;> exact h

end

/-- A worker holds the result of a lookup because it did before, or because it has
just looked. -/
theorem Threads.step_looked {w : Nat} {d : CStr} {r : LookupResult}
    (h : (s.step score m).worker w = .looked d r) :
    s.worker w = .looked d r ∨
      ∃ now, m = .lookupTree w now ∧ s.worker w = .missed d ∧ r = (radixLookup s.tree now d).1 := by
  rcases Threads.step_worker h with hold | hturn
  · exact Or.inl hold
  · cases hturn with
    | looked hw => exact Or.inr ⟨_, rfl, hw, rfl⟩

/-- **The turns of a gravity thread**: the move and where it leaves the check. -/
inductive Threads.CheckTurn (s : Threads) : Move → GravityCheck → Prop where
  | queued {w : Nat} {argsOk threadOk : Bool} {d : CStr} (h : s.worker w = .claimed d) :
    CheckTurn s (.queue w argsOk threadOk) ⟨truncated d, .asking⟩
  | confirmed {i : Nat} {d : CStr} (h : s.checks[i]? = some ⟨d, .asking⟩) :
    CheckTurn s (.answer i .blocked) ⟨d, .confirmed⟩
  | answered {i : Nat} {result : GravityResult} {d : CStr} (h : s.checks[i]? = some ⟨d, .asking⟩)
    (hresult : result ≠ .blocked) :
    CheckTurn s (.answer i result) ⟨d, .finishing result⟩
  | inserted {i : Nat} {a : Alloc} {now : UInt32} {d : CStr}
    (h : s.checks[i]? = some ⟨d, .confirmed⟩) :
    CheckTurn s (.insert i a now) ⟨d, .inserted (gravityInsert a s.tree now d).1 now⟩
  | invalidated {i : Nat} {rc : Int} {now : UInt32} {d : CStr}
    (h : s.checks[i]? = some ⟨d, .inserted rc now⟩) :
    CheckTurn s (.invalidate i) ⟨d, .invalidated rc now⟩
  | appended {i : Nat} {openOk : Bool} {rc : Int} {now : UInt32} {d : CStr}
    (h : s.checks[i]? = some ⟨d, .invalidated rc now⟩) :
    CheckTurn s (.append i openOk) ⟨d, .finishing .blocked⟩

/-- At most the check of the claimed domain is started. -/
theorem queueGravityCheck_started (argsOk threadOk : Bool) (g : Gravity) (domain : CStr) :
    ∀ d ∈ (queueGravityCheck argsOk threadOk g domain).threads.drop g.threads.length,
      d = truncated domain := by
  intro d hd
  rw [queueGravityCheck] at hd
  split at hd
  · rw [List.drop_length] at hd
    cases hd
  · split at hd
    · rw [List.drop_left] at hd
      exact List.mem_singleton.mp hd
    · rw [List.drop_length] at hd
      cases hd

section

variable {c : GravityCheck} {i : Nat}

theorem Threads.queue_check {w : Nat} {argsOk threadOk : Bool}
    (h : c ∈ (s.queue w argsOk threadOk).checks) :
    c ∈ s.checks ∨ s.CheckTurn (.queue w argsOk threadOk) c := by
  rw [Threads.queue] at h
  split at h
  · next d hw =>
    rcases List.mem_append.mp h with hold | hnew
    · exact Or.inl hold
    · obtain ⟨d', hd', rfl⟩ := List.mem_map.mp hnew
      have hlength : s.checks.length = s.gravity.threads.length := (List.length_map _).symm
      rw [hlength] at hd'
      rw [queueGravityCheck_started argsOk threadOk s.gravity d d' hd']
      exact Or.inr (.queued hw)
  · exact Or.inl h

theorem Threads.answer_check {result : GravityResult} (h : c ∈ (s.answer i result).checks) :
    c ∈ s.checks ∨ s.CheckTurn (.answer i result) c := by
  rw [Threads.answer] at h
  split at h
  · next d hi =>
    rcases List.mem_or_eq_of_mem_set h with hold | rfl
    · exact Or.inl hold
    · split
      · next hblocked =>
        subst hblocked
        exact Or.inr (.confirmed hi)
      · next hresult => exact Or.inr (.answered hi hresult)
  · exact Or.inl h

theorem Threads.insert_check {a : Alloc} {now : UInt32} (h : c ∈ (s.insert i a now).checks) :
    c ∈ s.checks ∨ s.CheckTurn (.insert i a now) c := by
  rw [Threads.insert] at h
  split at h
  · next d hi =>
    rcases List.mem_or_eq_of_mem_set h with hold | rfl
    · exact Or.inl hold
    · exact Or.inr (.inserted hi)
  · exact Or.inl h

theorem Threads.invalidate_check (h : c ∈ (s.invalidate i).checks) :
    c ∈ s.checks ∨ s.CheckTurn (.invalidate i) c := by
  rw [Threads.invalidate] at h
  split at h
  · next d rc now hi =>
    rcases List.mem_or_eq_of_mem_set h with hold | rfl
    · exact Or.inl hold
    · exact Or.inr (.invalidated hi)
  · exact Or.inl h

theorem Threads.append_check {openOk : Bool} (h : c ∈ (s.append i openOk).checks) :
    c ∈ s.checks ∨ s.CheckTurn (.append i openOk) c := by
  rw [Threads.append] at h
  split at h
  · next d rc now hi =>
    rcases List.mem_or_eq_of_mem_set h with hold | rfl
    · exact Or.inl hold
    · exact Or.inr (.appended hi)
  · exact Or.inl h

/-- **A check ran before, or the move is its turn.** -/
theorem Threads.step_check (h : c ∈ (s.step score m).checks) : c ∈ s.checks ∨ s.CheckTurn m c := by
  cases m with
  | queue w argsOk threadOk => exact Threads.queue_check h
  | answer i result => exact Threads.answer_check h
  | insert i a now => exact Threads.insert_check h
  | invalidate i => exact Threads.invalidate_check h
  | append i openOk => exact Threads.append_check h
  | markDone i =>
    left
    simp only [Threads.step, Threads.markDone] at h
    split at h
    · exact List.mem_of_mem_eraseIdx h
    · exact h
  | lookupCache | lookupTree | storeVerdict | flag | claim | startReload | readBlocklist
  | readLearned | swap | clearVerdicts | clearAnswers =>
    left
    simp only [Threads.step, Threads.lookupCache, Threads.lookupTree, Threads.storeVerdict,
      Threads.flag, Threads.claim, Threads.startReload, Threads.readBlocklist,
      Threads.readLearned, Threads.swap, Threads.clearVerdicts, Threads.clearAnswers] at h
    split at h <;> exact h

end

end

/-! ## The names the threads work on -/

/-- What workers check are the domains of questions. -/
def Move.AboutQuestion : Move → Prop
  | .lookupCache _ domain _ => IsQuestion domain
  | _ => True

/-- The domain a worker holds. -/
def WorkerStage.domain : WorkerStage → Option CStr
  | .idle => none
  | .missed domain => some domain
  | .looked domain _ => some domain
  | .unmatched domain => some domain
  | .flagged domain => some domain
  | .claimed domain => some domain

/-- The check is of a question, and past its insert only for a name that can be inserted. -/
structure GravityCheck.Named (c : GravityCheck) : Prop where
  question : IsQuestion c.domain
  nonempty : ∀ now, c.stage = .inserted 0 now ∨ c.stage = .invalidated 0 now → c.domain ≠ []

/-- All names come from questions. -/
structure Threads.Named (s : Threads) : Prop where
  worker : ∀ w d, (s.worker w).domain = some d → IsQuestion d
  checks : ∀ c ∈ s.checks, c.Named

section

variable {score : Scorer} {s : Threads} {m : Move}

theorem insertable_nonempty {domain : CStr} (h : Insertable domain) : domain ≠ [] := by
  rintro rfl
  exact h.2 rfl

/-- A worker's turn takes its name from the query, or leaves it. -/
theorem Threads.WorkerTurn.named {w : Nat} {stage : WorkerStage} (h : s.WorkerTurn w m stage)
    (hs : s.Named) (hm : m.AboutQuestion) {d : CStr} (hd : stage.domain = some d) :
    IsQuestion d := by
  cases h with
  | missed =>
    cases hd
    exact hm
  | looked hw | unmatched hw _ | flagged hw | claimed hw =>
    cases hd
    exact hs.worker w _ (congrArg WorkerStage.domain hw)
  | done => cases hd

/-- A check is queued for the domain a worker has claimed, and past its insert with return value 0
only where that could insert. -/
theorem Threads.CheckTurn.named {c : GravityCheck} (h : s.CheckTurn m c) (hs : s.Named) :
    c.Named := by
  have hquestion : ∀ {i : Nat} {d : CStr} {stage : CheckStage},
      s.checks[i]? = some ⟨d, stage⟩ → IsQuestion d :=
    fun hi => (hs.checks _ (List.mem_of_getElem? hi)).question
  cases h with
  | @queued w argsOk threadOk d hw =>
    obtain ⟨packet, qtype, hpacket⟩ := hs.worker w d (congrArg WorkerStage.domain hw)
    rw [(parseQuery_wireName hpacket).truncated]
    refine ⟨⟨packet, qtype, hpacket⟩, fun now hstage => ?_⟩
    rcases hstage with hstage | hstage <;> cases hstage
  | confirmed hi | answered hi _ | appended hi =>
    refine ⟨hquestion hi, fun now hstage => ?_⟩
    rcases hstage with hstage | hstage <;> cases hstage
  -- an insert that returns 0 has accepted its domain
  | inserted hi =>
    refine ⟨hquestion hi, fun now hstage => ?_⟩
    rcases hstage with hstage | hstage
    · injection hstage with hrc
      exact insertable_nonempty (radixTreeInsertLive_done hrc).1
    · cases hstage
  | @invalidated i rc now d hi =>
    refine ⟨hquestion hi, fun now' hstage => ?_⟩
    rcases hstage with hstage | hstage
    · cases hstage
    · injection hstage with hrc
      rw [hrc] at hi
      exact (hs.checks _ (List.mem_of_getElem? hi)).nonempty now (Or.inl rfl)

/-- **Every move keeps the names in order.** -/
theorem Threads.Named.step (h : s.Named) (hm : m.AboutQuestion) : (s.step score m).Named := by
  refine ⟨fun w d hd => ?_, fun c hc => ?_⟩
  · rcases Threads.step_worker (rfl : (s.step score m).worker w = _) with hsame | hturn
    · exact h.worker w d (hsame ▸ hd)
    · exact hturn.named h hm hd
  · rcases Threads.step_check hc with hold | hturn
    · exact h.checks c hold
    · exact hturn.named h

/-- Before the first move there are no names. -/
theorem Threads.Named.start (tree : RadixTree) (queryCache : Option (DnsCache proxyCacheCapacity))
    (answerCache : Option (AnswerCache proxyCacheCapacity)) (learned : Option CStr) :
    (Threads.start tree queryCache answerCache learned).Named := by
  refine ⟨fun w d hd => ?_, fun c hc => ?_⟩
  · cases hd
  · cases hc

end

end Nyet
