import Nyet.Blocklist.Coverage
import Nyet.Packet.Labels
import Nyet.Proxy.LearnedReload

/-!
# What is learned across restarts

Of what the gravity threads find out nothing outlives the proxy but the lines they append to
`learned.tsv`. A `ProxySession` is one life of the proxy, started with a blocklist and with
`learned.tsv` as the session before has left it, and ended after any moves of its threads. The
file is a ledger: whatever the interleaving, each session leaves the lines it found and adds one
for each check that was confirmed and appended (`Durable.ledger`). So the proxy that starts next
BLOCKS every such domain and all below it, but for what an `A` row of the files ALLOWS, and
beyond that decides as the files do (`confirmed_blocked_after_restarts`).
-/

namespace Nyet

/-- One life of the proxy: what it is started with, and the moves of its threads until it
ends. -/
structure ProxySession where
  now : UInt32
  blocklist : Option CStr
  queryCacheOk : Bool
  answerCacheOk : Bool
  moves : List Move

/-- The threads as `proxy_init` leaves them, given `learned.tsv`. -/
def ProxySession.start (g : ProxySession) (learned : Option CStr) : Threads :=
  .start (initialTree g.now g.blocklist learned)
    (if g.queryCacheOk then dnsCacheInit proxyCacheCapacity else none)
    (if g.answerCacheOk then answerCacheInit proxyCacheCapacity else none) learned

/-- What outlives the proxy, and the domains whose confirmation was appended, newest first. -/
structure Durable where
  learned : Option CStr
  confirmed : List CStr

/-- One session. -/
def Durable.step (score : Scorer) (s : Durable) (g : ProxySession) : Durable :=
  let ended := Lib.run (Persisting.step score) (.start (g.start s.learned)) g.moves
  ⟨ended.threads.learned, ended.appended ++ s.confirmed⟩

/-- The first session finds this file. -/
def Durable.init (learned : Option CStr) : Durable := ⟨learned, []⟩

/-- The moves of a session are about questions. -/
def ProxySession.AboutQuestions (g : ProxySession) : Prop := ∀ m ∈ g.moves, m.AboutQuestion

/-- An `A` row of the files stands at the path or above, and no confirmation has replaced it. -/
def AllowedElsewhere (rows : List Row) (confirmed : List CStr) (ls : List Label) : Prop :=
  ∃ ks, ks ≠ [] ∧ ks <+: ls ∧ lastStatus rows ks = some .allowed ∧
    ∀ d ∈ confirmed, normalise d ≠ ks

/-! ## The ledger -/

/-- The file is what it was at first, and a line for each confirmed domain, oldest first. -/
def Ledger (learned learned' : Option CStr) (confirmed : List CStr) : Prop :=
  ∃ calls : List LearnedCall, (∀ c ∈ calls, c.Valid ∧ c.openOk = true ∧ c.status = .blocked) ∧
    calls.map (·.domain) = confirmed.reverse ∧ learned' = calls.foldl LearnedCall.append learned

section

variable {score : Scorer} {s : Threads} {m : Move} {learned learned' : Option CStr}
  {confirmed : List CStr}

/-- A domain is appended for a check that is past a successful insert. -/
theorem Threads.appends_some {d : CStr} (h : s.appends m = some d) :
    ∃ c ∈ s.checks, c.domain = d ∧ ∃ now, c.stage = .invalidated 0 now := by
  unfold Threads.appends at h
  split at h
  · split at h
    · next domain rc now hi =>
      split at h
      · next hrc =>
        cases h
        exact ⟨_, List.mem_of_getElem? hi, rfl, now, by rw [hrc]⟩
      · cases h
    · cases h
  · cases h

theorem Ledger.append (h : Ledger learned learned' confirmed) {d : CStr} (hq : IsQuestion d)
    (hne : d ≠ []) (now : UInt32) :
    Ledger learned (appendLearnedEntry true learned' .blocked .piGravity now now 1 0 d)
      (d :: confirmed) := by
  obtain ⟨calls, hcalls, hdomains, rfl⟩ := h
  have hnew : (LearnedCall.mk true .blocked .piGravity now now 1 0 d).Valid :=
    ⟨show (1 : UInt32).toNat < 2 ^ 31 by decide, hq, hne⟩
  refine ⟨calls ++ [⟨true, .blocked, .piGravity, now, now, 1, 0, d⟩], fun c hc => ?_, ?_, ?_⟩
  · rcases List.mem_append.mp hc with hold | hc
    · exact hcalls c hold
    · rw [List.mem_singleton.mp hc]
      exact ⟨hnew, rfl, rfl⟩
  · rw [List.map_append, hdomains, List.reverse_cons]
    rfl
  · rw [List.foldl_append]
    rfl

/-- The threads' names are in order, and the file is a ledger of the confirmed domains. -/
structure Persisting.Books (learned : Option CStr) (confirmed : List CStr) (s : Persisting) :
    Prop where
  named : s.threads.Named
  ledger : Ledger learned s.threads.learned (s.appended ++ confirmed)

/-- **Every move keeps the books.** -/
theorem Persisting.Books.step {s : Persisting} (h : s.Books learned confirmed)
    (hm : m.AboutQuestion) : (s.step score m).Books learned confirmed := by
  refine ⟨h.named.step hm, ?_⟩
  show Ledger learned (s.threads.step score m).learned
    ((s.threads.appends m).toList ++ s.appended ++ confirmed)
  cases happends : s.threads.appends m with
  | none =>
    rw [Threads.step_learned happends]
    exact h.ledger
  | some d =>
    obtain ⟨c, hc, rfl, now, hstage⟩ := Threads.appends_some happends
    obtain ⟨-, now', hlearned⟩ := Threads.step_appends score happends
    have hnamed := h.named.checks c hc
    rw [hlearned]
    exact h.ledger.append hnamed.question (hnamed.nonempty now (Or.inr hstage)) now'

/-- **Every session keeps the ledger.** -/
theorem Ledger.proxySession {s : Durable} (h : Ledger learned s.learned s.confirmed)
    {g : ProxySession}
    (hg : g.AboutQuestions) :
    Ledger learned (s.step score g).learned (s.step score g).confirmed := by
  have hstart : (Persisting.start (g.start s.learned)).Books learned s.confirmed :=
    ⟨.start _ _ _ _, h⟩
  exact (Lib.run_invariant_of_everyStep (fun _ _ h hm => Persisting.Books.step h hm) hstart
    (Lib.everyStep_of_mem (fun _ => hg) _)).ledger

/-- **The ledger after any sessions.** -/
theorem Durable.ledger (score : Scorer) (learned : Option CStr) {sessions : List ProxySession}
    (habout : ∀ g ∈ sessions, g.AboutQuestions) :
    let s := Lib.run (Durable.step score) (.init learned) sessions
    Ledger learned s.learned s.confirmed := by
  have hstep : ∀ (s : Durable) (g : ProxySession), Ledger learned s.learned s.confirmed →
      g.AboutQuestions → Ledger learned (s.step score g).learned (s.step score g).confirmed :=
    fun _ _ h hg => h.proxySession hg
  have hinit : Ledger learned (Durable.init learned).learned (Durable.init learned).confirmed :=
    ⟨[], fun _ hc => absurd hc List.not_mem_nil, rfl, rfl⟩
  have hrun := Lib.run_invariant_of_everyStep hstep hinit (Lib.everyStep_of_mem (fun _ => habout) _)
  exact hrun

/-- What `load_blocklist` reads from the ledger. -/
theorem Ledger.rows (h : Ledger learned learned' confirmed)
    (hwhole : EndsInNewline (learned.getD [])) (now : UInt32) :
    ∃ added, rowsOf now learned' = rowsOf now learned ++ added ∧
      (∀ row ∈ added, row.Loaded ∧ row.entry.status = .blocked) ∧
      added.map (·.domain) = confirmed.reverse := by
  obtain ⟨calls, hcalls, hdomains, rfl⟩ := h
  have hopen : calls.filter LearnedCall.openOk = calls :=
    List.filter_eq_self.mpr fun c hc => (hcalls c hc).2.1
  refine ⟨learnedRows calls, rowsOf_appends now (fun c hc => (hcalls c hc).1) hwhole, ?_, ?_⟩
  · rw [learnedRows, hopen]
    intro row hrow
    obtain ⟨c, hc, rfl⟩ := List.mem_map.mp hrow
    obtain ⟨hvalid, -, hstatus⟩ := hcalls c hc
    exact ⟨hvalid.loaded, hstatus⟩
  · rw [learnedRows, hopen, List.map_map, ← hdomains]
    rfl

end

/-! ## What the files say then -/

section

variable {rows rows' : List Row} {ls : List Label} {confirmed : List CStr}

/-- Rows of nothing but loaded `B` lines overrule what stood at their paths. -/
theorem lastStatus_confirmed (rows : List Row)
    (hadded : ∀ row ∈ rows', row.Loaded ∧ row.entry.status = .blocked)
    (hdomains : rows'.map (·.domain) = confirmed.reverse) (ls : List Label) :
    (∃ d ∈ confirmed, normalise d = ls) ∧ lastStatus (rows ++ rows') ls = some .blocked ∨
      (∀ d ∈ confirmed, normalise d ≠ ls) ∧ lastStatus (rows ++ rows') ls = lastStatus rows ls := by
  have hmem : ∀ d, d ∈ confirmed ↔ ∃ row ∈ rows', row.domain = d := by
    intro d
    rw [← List.mem_reverse, ← hdomains, List.mem_map]
  rw [lastStatus_append]
  by_cases hls : ∃ d ∈ confirmed, normalise d = ls
  · left
    obtain ⟨d, hd, rfl⟩ := hls
    obtain ⟨row, hrow, rfl⟩ := (hmem d).mp hd
    rw [lastStatus_blocked (fun row hrow => (hadded row hrow).2) hrow (hadded row hrow).1]
    exact ⟨⟨row.domain, hd, rfl⟩, rfl⟩
  · right
    have hno : ∀ d ∈ confirmed, normalise d ≠ ls := fun d hd heq => hls ⟨d, hd, heq⟩
    refine ⟨hno, ?_⟩
    cases hlast : lastStatus rows' ls with
    | none => rfl
    | some st =>
      obtain ⟨row, hrow, -, -, hpath⟩ := exists_row_of_lastStatus hlast
      exact absurd hpath (hno row.domain ((hmem _).mpr ⟨row, hrow, rfl⟩))

theorem covered_allowed_confirmed
    (hadded : ∀ row ∈ rows', row.Loaded ∧ row.entry.status = .blocked)
    (hdomains : rows'.map (·.domain) = confirmed.reverse) :
    Covered (rows ++ rows') .allowed ls ↔ AllowedElsewhere rows confirmed ls := by
  refine exists_congr fun ks => and_congr_right fun _ => and_congr_right fun _ => ?_
  rcases lastStatus_confirmed rows hadded hdomains ks with
    ⟨⟨d, hd, heq⟩, hlast⟩ | ⟨hno, hlast⟩
  · rw [hlast]
    exact iff_of_false (fun h => by cases h) fun h => h.2 d hd heq
  · rw [hlast]
    exact (and_iff_left hno).symm

theorem covered_blocked_confirmed
    (hadded : ∀ row ∈ rows', row.Loaded ∧ row.entry.status = .blocked)
    (hdomains : rows'.map (·.domain) = confirmed.reverse) :
    Covered (rows ++ rows') .blocked ls ↔
      (∃ d ∈ confirmed, normalise d <+: ls) ∨ Covered rows .blocked ls := by
  have hnames : ∀ d ∈ confirmed, normalise d ≠ [] := by
    intro d hd
    rw [← List.mem_reverse, ← hdomains] at hd
    obtain ⟨row, hrow, rfl⟩ := List.mem_map.mp hd
    exact (hadded row hrow).1.2
  -- path by path: what was confirmed there last, or the old rows
  have hat := fun ks => lastStatus_confirmed rows hadded hdomains ks
  constructor
  · rintro ⟨ks, hne, hpre, hlast⟩
    rcases hat ks with ⟨⟨d, hd, rfl⟩, -⟩ | ⟨-, hold⟩
    · exact Or.inl ⟨d, hd, hpre⟩
    · exact Or.inr ⟨ks, hne, hpre, hold.symm.trans hlast⟩
  · rintro (⟨d, hd, hpre⟩ | ⟨ks, hne, hpre, hlast⟩)
    · refine ⟨normalise d, hnames d hd, hpre, ?_⟩
      rcases hat (normalise d) with ⟨-, hlast⟩ | ⟨hno, -⟩
      · exact hlast
      · exact absurd rfl (hno d hd)
    · refine ⟨ks, hne, hpre, ?_⟩
      rcases hat ks with ⟨-, hnew⟩ | ⟨-, hold⟩
      · exact hnew
      · exact hold.trans hlast

end

/-- **A confirmation outlives the proxy**: after any sessions, whatever their interleavings, the
proxy that starts next ALLOWS what the `A` rows ALLOW that no confirmation has replaced, and of
the rest it BLOCKS every domain at or below a confirmed one, besides those the files BLOCK. -/
theorem confirmed_blocked_after_restarts (score : Scorer) {learned : Option CStr}
    (hwhole : EndsInNewline (learned.getD [])) {sessions : List ProxySession}
    (habout : ∀ g ∈ sessions, g.AboutQuestions) (now asked : UInt32) (blocklist : Option CStr)
    {q : CStr} (hlen : q.length < labelBufSize) :
    let s := Lib.run (Durable.step score) (.init learned) sessions
    let rows := rowsOf now blocklist ++ rowsOf now learned
    let outcome := (radixLookup (initialTree now blocklist s.learned) asked q).1.outcome
    (outcome = some .allowed ↔ AllowedElsewhere rows s.confirmed (normalise q)) ∧
      (outcome = some .blocked ↔ ¬ AllowedElsewhere rows s.confirmed (normalise q) ∧
        ((∃ d ∈ s.confirmed, normalise d <+: normalise q) ∨
          Covered rows .blocked (normalise q))) := by
  intro s rows outcome
  obtain ⟨added, hrows, hadded, hdomains⟩ := (Durable.ledger score learned habout).rows hwhole now
  have hrefines := initialTree_refines now blocklist s.learned
  rw [hrows, ← List.append_assoc] at hrefines
  have hallowed := lookup_allowed_iff hrefines asked q
  have hblocked := lookup_blocked_iff hrefines asked q
  rw [covered_allowed_confirmed hadded hdomains, and_iff_right hlen] at hallowed
  rw [covered_allowed_confirmed hadded hdomains, covered_blocked_confirmed hadded hdomains,
    and_iff_right hlen, and_comm] at hblocked
  exact ⟨hallowed, hblocked⟩

/-- A session in which a confirmed domain gets lost between a reload and its append. -/
def lostSession : ProxySession :=
  ⟨0, none, true, true,
    lookupMoves 0 raceDomain ++ [.flag 0 [] 0, .claim 0 [], .queue 0 true true] ++ lostBlock⟩

theorem lostSession_aboutQuestions : lostSession.AboutQuestions := by
  have hq : IsQuestion raceDomain := ⟨queryPacket 1 [cstr "a", cstr "b"] 1, 1, by decide +kernel⟩
  intro m hm
  cases m with
  | lookupCache w domain nowNs =>
    have hdomain : domain = raceDomain := by
      simp [lostSession, lookupMoves, lostBlock, readMoves, swapMoves, persistMoves] at hm
      exact hm.2.1
    rw [hdomain]
    exact hq
  | _ => trivial

/-- The next session has it back. -/
theorem confirmed_blocked_after_restarts_lost :
    let s := Lib.run (Durable.step fun _ => (0, [])) (.init none) [lostSession]
    (radixLookup (initialTree 0 none s.learned) 0 (cstr "x.a.b")).1.outcome = some .blocked := by
  intro s
  have hconfirmed : s.confirmed = [raceDomain] := by decide +kernel
  have habout : ∀ g ∈ [lostSession], g.AboutQuestions := by
    intro g hg
    rw [List.mem_singleton.mp hg]
    exact lostSession_aboutQuestions
  have hwhole : EndsInNewline ((none : Option CStr).getD []) := Or.inl rfl
  have hlen : (cstr "x.a.b").length < labelBufSize := by decide
  obtain ⟨-, hblocked⟩ :=
    confirmed_blocked_after_restarts (fun _ => (0, [])) hwhole habout 0 0 none hlen
  refine hblocked.mpr ⟨?_, Or.inl ⟨raceDomain, ?_, by decide +kernel⟩⟩
  · rintro ⟨ks, -, -, hlast, -⟩
    cases hlast
  · show raceDomain ∈ s.confirmed
    rw [hconfirmed]
    exact List.mem_singleton_self _

end Nyet
