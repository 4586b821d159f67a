import Nyet.Blocklist.Tsv
import Nyet.Cache.AnswerCache
import Nyet.Cache.DnsCache
import Nyet.Lib.Run

/-!
# A pass of the reload thread (`reload_thread_proc`)

A pass polls the mtime of the blocklist and, if it has changed, builds a new tree from
`blocklist.tsv` and `learned.tsv`, swaps it in and clears both caches. When memory runs
out the old tree is kept. A blocklist that cannot be opened is loaded as an empty one
instead, and its mtime counts as seen: `failed_reload_survives_iff` says when that makes
no difference.

The reads of the files and the outcomes of the allocations are passed in; what the
workers do between two passes may be anything. Log flushing is left out.
-/

namespace Nyet

/-- What the reload thread works on: `blocklist_tree`, the two caches, which may be NULL,
and its own `last_mtime`. -/
structure Reloader (verdicts answers : Nat) where
  tree : RadixTree
  queryCache : Option (DnsCache verdicts)
  answerCache : Option (AnswerCache answers)
  lastMtime : Int

/-- What one pass meets: `st_mtime` if `_stat` succeeds, the clock, the two files if they
can be opened, and the outcomes of the allocations of `radix_builder_init` and of the
`radix_insert` for each row. -/
structure Pass where
  stat : Option Int
  now : UInt32
  blocklist : Option CStr
  learned : Option CStr
  builder : Alloc
  blocklistRows : Nat → Alloc
  learnedRows : Nat → Alloc

/-- How a pass ends. -/
inductive PassResult where
  /-- "unreadable or unchanged -- nothing to do" -/
  | skipped
  /-- "OOM building new tree, keeping old one" -/
  | outOfMemory
  /-- "reloaded blocklist: %d + %d entries" -/
  | reloaded (n1 n2 : Nat)
  deriving DecidableEq, Repr

/-- `insertRows` with the outcomes of the allocations for each row. -/
def insertRowsWith (a : Nat → Alloc) (b : RadixTreeBuilder) : List Row → RadixTreeBuilder
  | [] => b
  | row :: rows => insertRowsWith (fun i => a (i + 1)) (radixInsert (a 0) b row.domain row.entry).2 rows

/-- `load_blocklist`, whatever the allocator does. -/
def loadBlocklistWith (a : Nat → Alloc) (now : UInt32) (b : RadixTreeBuilder)
    (file : Option CStr) : Nat × RadixTreeBuilder :=
  ((rowsOf now file).length, insertRowsWith a b (rowsOf now file))

section

variable {verdicts answers : Nat}

/-- The body of the loop of `reload_thread_proc`. -/
def Reloader.pass (s : Reloader verdicts answers) (p : Pass) :
    PassResult × Reloader verdicts answers :=
  match p.stat with
  | none => (.skipped, s)
  | some mtime =>
    if mtime = s.lastMtime then (.skipped, s)
    else
      let s := { s with lastMtime := mtime }
      match radixBuilderInit p.builder with
      | none => (.outOfMemory, s)
      | some b =>
        let (n1, b) := loadBlocklistWith p.blocklistRows p.now b p.blocklist
        let (n2, b) := loadBlocklistWith p.learnedRows p.now b p.learned
        (.reloaded n1 n2, { s with
          tree := (radixTreeSwap s.tree b).1
          queryCache := s.queryCache.map dnsCacheClear
          answerCache := s.answerCache.map answerCacheClear })

/-- A pass, or what the workers make of the tree and the caches until the next one. -/
inductive ReloadEvent (verdicts answers : Nat) where
  | pass (p : Pass)
  | serve (tree : RadixTree) (queryCache : Option (DnsCache verdicts))
      (answerCache : Option (AnswerCache answers))

def Reloader.step (s : Reloader verdicts answers) :
    ReloadEvent verdicts answers → Reloader verdicts answers
  | .pass p => (s.pass p).2
  | .serve tree queryCache answerCache =>
    { s with tree := tree, queryCache := queryCache, answerCache := answerCache }

/-! ## A failed reload -/

/-- The blocklist cannot be opened in any pass. -/
def ReloadEvent.Unread : ReloadEvent verdicts answers → Prop
  | .pass p => p.blocklist = none
  | .serve .. => True

/-- A pass that finds the mtime changed but cannot open the blocklist, and the next one in
which it can be read. -/
structure FailedReload (s : Reloader verdicts answers) where
  failed : Pass
  mtime : Int
  stat : failed.stat = some mtime
  changed : mtime ≠ s.lastMtime
  unreadable : failed.blocklist = none
  between : List (ReloadEvent verdicts answers)
  unread : ∀ e ∈ between, e.Unread
  later : Pass
  laterMtime : Int
  laterStat : later.stat = some laterMtime
  file : CStr
  readable : later.blocklist = some file

/-- The pass builds a tree from the rows of both files and puts it in. -/
def Reloader.Loads (s : Reloader verdicts answers) (p : Pass) : Prop :=
  ∃ b, radixBuilderInit p.builder = some b ∧
    (s.pass p).1 = .reloaded (rowsOf p.now p.blocklist).length (rowsOf p.now p.learned).length ∧
    (s.pass p).2.tree = (radixTreeSwap s.tree (insertRowsWith p.learnedRows
      (insertRowsWith p.blocklistRows b (rowsOf p.now p.blocklist)) (rowsOf p.now p.learned))).1

/-- A pass leaves the published tree and both caches alone. -/
def Reloader.Keeps (s : Reloader verdicts answers) (p : Pass) : Prop :=
  (s.pass p).2.tree = s.tree ∧ (s.pass p).2.queryCache = s.queryCache ∧
    (s.pass p).2.answerCache = s.answerCache

variable {s : Reloader verdicts answers}

/-- **What a reload that fails should do**: keep the old tree and the caches, and load the
file once it can be read. -/
def FailedReload.Survives (r : FailedReload s) : Prop :=
  s.Keeps r.failed ∧
    (Lib.run Reloader.step (s.pass r.failed).2 r.between).Loads r.later

/-- The tree a start without a blocklist would publish. -/
def Pass.learnedOnly (p : Pass) : Option RadixTree :=
  (radixBuilderInit p.builder).map fun b =>
    (radixPublish radixTreeInit (loadBlocklistWith p.learnedRows p.now b p.learned).2).1

/-- Neither cache holds anything. -/
def Reloader.CachesEmpty (s : Reloader verdicts answers) : Prop :=
  (∀ c, s.queryCache = some c → (∀ i, c.entries i = .zero) ∧ c.count = 0) ∧
    ∀ c, s.answerCache = some c → (∀ i, c.entries i = .zero) ∧ c.count = 0

/-- The mtime of the last `_stat` that succeeded. -/
def seenMtime (m : Int) (events : List (ReloadEvent verdicts answers)) : Int :=
  events.foldl (fun m e =>
    match e with
    | .pass p => p.stat.getD m
    | .serve .. => m) m

/-- The condition: there was nothing to lose, or no memory to lose it with, and the later
pass has memory and sees yet another mtime. -/
def FailedReload.Harmless (r : FailedReload s) : Prop :=
  (r.failed.learnedOnly = none ∨ (r.failed.learnedOnly = some s.tree ∧ s.CachesEmpty)) ∧
    radixBuilderInit r.later.builder ≠ none ∧ r.laterMtime ≠ seenMtime r.mtime r.between

/-! ## One pass -/

theorem insertRowsWith_nil (b : RadixTreeBuilder) (rows : List Row) :
    insertRowsWith (fun _ => []) b rows = insertRows b rows := by
  induction rows generalizing b with
  | nil => rfl
  | cons row rows ih => exact ih _

/-- A pass notes the mtime it sees, whatever becomes of the rest. -/
theorem Reloader.pass_lastMtime (s : Reloader verdicts answers) (p : Pass) :
    (s.pass p).2.lastMtime = p.stat.getD s.lastMtime := by
  rw [Reloader.pass]
  cases p.stat with
  | none => rfl
  | some mtime =>
    dsimp only
    split
    · next heq => exact heq.symm
    · split <;> rfl

theorem Reloader.run_lastMtime (s : Reloader verdicts answers)
    (events : List (ReloadEvent verdicts answers)) :
    (Lib.run Reloader.step s events).lastMtime = seenMtime s.lastMtime events := by
  induction events generalizing s with
  | nil => rfl
  | cons e events ih =>
    rw [Lib.run_cons, ih]
    cases e with
    | pass p => exact congrArg (seenMtime · events) (s.pass_lastMtime p)
    | serve tree queryCache answerCache => rfl

/-- **A pass that finds the mtime changed**, by cases: no memory for a builder, or a tree of
both files. -/
theorem Reloader.pass_changed (s : Reloader verdicts answers) {p : Pass} {mtime : Int}
    (hstat : p.stat = some mtime) (hchanged : mtime ≠ s.lastMtime) :
    (radixBuilderInit p.builder = none ∧
      s.pass p = (.outOfMemory, { s with lastMtime := mtime })) ∨
    ∃ b, radixBuilderInit p.builder = some b ∧
      s.pass p =
        (.reloaded (rowsOf p.now p.blocklist).length (rowsOf p.now p.learned).length,
          { tree := (radixTreeSwap s.tree (insertRowsWith p.learnedRows
              (insertRowsWith p.blocklistRows b (rowsOf p.now p.blocklist))
              (rowsOf p.now p.learned))).1
            queryCache := s.queryCache.map dnsCacheClear
            answerCache := s.answerCache.map answerCacheClear
            lastMtime := mtime }) := by
  rw [Reloader.pass]
  rw [hstat]
  dsimp only
  rw [if_neg hchanged]
  cases radixBuilderInit p.builder with
  | none => exact Or.inl ⟨rfl, rfl⟩
  | some b => exact Or.inr ⟨b, rfl, rfl⟩

theorem dnsCacheClear_eq_self {cache : DnsCache verdicts} :
    dnsCacheClear cache = cache ↔ (∀ i, cache.entries i = .zero) ∧ cache.count = 0 := by
  rw [dnsCacheClear]
  obtain ⟨entries, count, _, _, _, _, _, _⟩ := cache
  simp only [DnsCache.mk.injEq, and_true, funext_iff]
  exact and_congr (forall_congr' fun _ => eq_comm) eq_comm

theorem answerCacheClear_eq_self {cache : AnswerCache answers} :
    answerCacheClear cache = cache ↔ (∀ i, cache.entries i = .zero) ∧ cache.count = 0 := by
  rw [answerCacheClear]
  obtain ⟨entries, count, _, _, _, _, _, _⟩ := cache
  simp only [AnswerCache.mk.injEq, and_true, funext_iff]
  exact and_congr (forall_congr' fun _ => eq_comm) eq_comm

theorem map_eq_self_iff {α : Type*} {f : α → α} {o : Option α} :
    o.map f = o ↔ ∀ a, o = some a → f a = a := by
  cases o with
  | none => simp
  | some a => simp

/-- Clearing changes nothing exactly if the caches are empty. -/
theorem Reloader.cachesEmpty_iff (s : Reloader verdicts answers) :
    s.CachesEmpty ↔ s.queryCache.map dnsCacheClear = s.queryCache ∧
      s.answerCache.map answerCacheClear = s.answerCache := by
  rw [map_eq_self_iff, map_eq_self_iff]
  exact and_congr (forall₂_congr fun _ _ => dnsCacheClear_eq_self.symm)
    (forall₂_congr fun _ _ => answerCacheClear_eq_self.symm)

/-- Which failed reloads keep everything: what is swapped in is what `learned.tsv` holds. -/
theorem FailedReload.keeps_iff (r : FailedReload s) :
    s.Keeps r.failed ↔
      r.failed.learnedOnly = none ∨ (r.failed.learnedOnly = some s.tree ∧ s.CachesEmpty) := by
  rw [Reloader.Keeps, Pass.learnedOnly]
  rcases s.pass_changed r.stat r.changed with ⟨hinit, hpass⟩ | ⟨b, hinit, hpass⟩
  · rw [hinit, hpass]
    exact iff_of_true ⟨rfl, rfl, rfl⟩ (Or.inl rfl)
  · have hrows : rowsOf r.failed.now r.failed.blocklist = [] := by
      rw [r.unreadable]
      rfl
    rw [hrows] at hpass
    rw [hinit, hpass, s.cachesEmpty_iff, Option.map_some, Option.some_inj]
    exact ⟨Or.inr, fun h => h.resolve_left (Option.some_ne_none _)⟩

/-- Which passes load a readable file. -/
theorem Reloader.loads_iff (s : Reloader verdicts answers) {p : Pass} {mtime : Int}
    (hstat : p.stat = some mtime) :
    s.Loads p ↔ radixBuilderInit p.builder ≠ none ∧ mtime ≠ s.lastMtime := by
  constructor
  · rintro ⟨b, hinit, hresult, -⟩
    refine ⟨fun hnone => ?_, fun hsame => ?_⟩
    · cases hinit.symm.trans hnone
    · have hskipped : s.pass p = (.skipped, s) := by
        rw [Reloader.pass]
        rw [hstat]
        exact if_pos hsame
      rw [hskipped] at hresult
      cases hresult
  · rintro ⟨hinit, hchanged⟩
    rcases s.pass_changed hstat hchanged with ⟨hnone, -⟩ | ⟨b, hb, hpass⟩
    · exact absurd hnone hinit
    · refine ⟨b, hb, ?_, ?_⟩ <;> rw [hpass]

/-- **When a reload that fails is harmless**: exactly if the builder cannot be allocated,
which keeps the old tree, or the published tree is already what `learned.tsv` alone
gives and both caches are empty; and if the pass that can read the file sees an mtime
other than the last one seen, and can allocate its builder. -/
theorem failed_reload_survives_iff (r : FailedReload s) : r.Survives ↔ r.Harmless := by
  have hmtime : (Lib.run Reloader.step (s.pass r.failed).2 r.between).lastMtime =
      seenMtime r.mtime r.between := by
    rw [Reloader.run_lastMtime, s.pass_lastMtime, r.stat]
    rfl
  rw [FailedReload.Survives, FailedReload.Harmless]
  rw [r.keeps_iff, Reloader.loads_iff _ r.laterStat, hmtime]

/-- After a failed reload with memory to spare, the tree holds the rows of `learned.tsv`
and nothing else. -/
theorem FailedReload.refines (r : FailedReload s) (hbuilder : r.failed.builder = [])
    (hrows : ∀ i, r.failed.learnedRows i = []) :
    RootRefines (s.pass r.failed).2.tree.root
      (some (loadLog (rowsOf r.failed.now r.failed.learned))) := by
  have hrefines := reloadedTree_refines r.failed.now s.tree none r.failed.learned
  rcases s.pass_changed r.stat r.changed with ⟨hinit, -⟩ | ⟨b, hinit, hpass⟩
  · rw [hbuilder] at hinit
    cases hinit
  · obtain rfl : b = (radixBuilderInit []).get rfl := by
      rw [hbuilder] at hinit
      exact (Option.get_of_eq_some rfl hinit).symm
    rw [hpass, r.unreadable, show r.failed.learnedRows = fun _ => [] from funext hrows,
      show rowsOf r.failed.now none = [] from rfl, insertRowsWith_nil]
    exact hrefines

end

/-- A pass with memory to spare. -/
def Pass.reading (mtime : Int) (blocklist : Option CStr) : Pass :=
  ⟨some mtime, 0, blocklist, none, [], fun _ => [], fun _ => []⟩

/-- A published tree, no caches, and a blocklist last seen at time 1. -/
def Reloader.publishing (tree : RadixTree) : Reloader 64 64 := ⟨tree, none, none, 1⟩

/-- The blocklist cannot be opened at time 2 and can be read when its mtime is `later`. -/
def failedAt2 (tree : RadixTree) (later : Int) : FailedReload (Reloader.publishing tree) where
  failed := .reading 2 none
  mtime := 2
  stat := rfl
  changed := show (2 : Int) ≠ 1 by decide
  unreadable := rfl
  between := []
  unread := fun _ h => nomatch h
  later := .reading later (some (cstr "B\tads.com\n"))
  laterMtime := later
  laterStat := rfl
  file := cstr "B\tads.com\n"
  readable := rfl

/-- The proxy was started without a blocklist, and the file is written once more. -/
theorem failed_reload_survives_started_empty : (failedAt2 (initialTree 0 none none) 3).Survives :=
  (failed_reload_survives_iff _).mpr
    ⟨Or.inr ⟨rfl, ⟨nofun, nofun⟩⟩, nofun, show (3 : Int) ≠ 2 by decide⟩

/-- The only BLOCKED domain is lost, and stays so when the file can be read again. -/
theorem failed_reload_loses_blocklist :
    ¬ (failedAt2 oneBlocked 2).Survives ∧
      (radixLookup oneBlocked 0 (cstr "ads.com")).1.outcome = some .blocked ∧
      (radixLookup ((Reloader.publishing oneBlocked).pass (.reading 2 none)).2.tree 0
        (cstr "ads.com")).1.outcome = none ∧
      ((((Reloader.publishing oneBlocked).pass (.reading 2 none)).2.pass
        (.reading 2 (some (cstr "B\tads.com\n")))).1 = .skipped) := by
  have hbefore : (radixLookup oneBlocked 0 (cstr "ads.com")).1.outcome = some .blocked := by
    decide +kernel
  have hafter : (radixLookup ((Reloader.publishing oneBlocked).pass (.reading 2 none)).2.tree 0
      (cstr "ads.com")).1.outcome = none := by
    decide +kernel
  refine ⟨?_, hbefore, hafter, rfl⟩
  rintro ⟨⟨htree, -, -⟩, -⟩
  have hsame : (radixLookup ((Reloader.publishing oneBlocked).pass (.reading 2 none)).2.tree 0
      (cstr "ads.com")).1.outcome = some .blocked := by
    rw [show ((Reloader.publishing oneBlocked).pass (.reading 2 none)).2.tree = oneBlocked
      from htree]
    exact hbefore
  cases hafter.symm.trans hsame

end Nyet
