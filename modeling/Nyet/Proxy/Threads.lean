import Nyet.Blocklist.Learned
import Nyet.Lib.Run
import Nyet.Proxy.Request

/-!
# Workers, gravity threads and the reload thread side by side

`Request` runs `check_domain`, the vetting and `gravity_check_thread` in one go.
Here they are cut where the source lets go of a lock, and the reload thread runs
beside them: a `Move` is one step of one thread. A move that its thread is not at
leaves the state alone, so every list of moves is an interleaving.

Taken without interruption the moves are the functions they were cut from
(`checkDomain_moves`, `vet_moves`, `gravityCheckThread_moves`).
-/

namespace Nyet

/-- Where a worker stands, from the start of `check_domain` to the end of the
vetting. -/
inductive WorkerStage where
  | idle
  /-- `dns_cache_lookup` missed. -/
  | missed (domain : CStr)
  /-- `radix_lookup` has returned. -/
  | looked (domain : CStr) (r : LookupResult)
  /-- `check_domain` has returned, without a match. -/
  | unmatched (domain : CStr)
  /-- `run_heuristics` has returned. -/
  | flagged (domain : CStr)
  /-- `asked_cache_try_claim` has won. -/
  | claimed (domain : CStr)
  deriving DecidableEq, Repr

/-- Where a gravity thread stands. -/
inductive CheckStage where
  /-- In `query_pi_gravity`. -/
  | asking
  /-- It returned 1. -/
  | confirmed
  /-- `radix_tree_insert_live` has returned `rc`. -/
  | inserted (rc : Int) (now : UInt32)
  /-- `answer_cache_invalidate` has returned. -/
  | invalidated (rc : Int) (now : UInt32)
  /-- Before `asked_cache_mark_done`. -/
  | finishing (result : GravityResult)
  deriving DecidableEq, Repr

/-- A gravity thread. -/
structure GravityCheck where
  domain : CStr
  stage : CheckStage
  deriving DecidableEq, Repr

/-- Where the reload thread stands. -/
inductive ReloadStage where
  | idle
  /-- `radix_builder_init` has returned. -/
  | started (b : RadixTreeBuilder)
  /-- `blocklist.tsv` is read. -/
  | halfRead (b : RadixTreeBuilder)
  /-- `learned.tsv` is read, too. -/
  | read (b : RadixTreeBuilder)
  /-- `radix_tree_swap` has returned. -/
  | swapped
  /-- `dns_cache_clear` has returned. -/
  | cleared

/-- What the threads share, and where each of them stands. -/
structure Threads where
  tree : RadixTree
  queryCache : Option (DnsCache proxyCacheCapacity)
  answerCache : Option (AnswerCache proxyCacheCapacity)
  asked : AskedCache
  permits : Nat
  learned : Option CStr
  worker : Nat → WorkerStage
  checks : List GravityCheck
  reload : ReloadStage

/-- One step of worker `w`, of the `i`-th gravity thread or of the reload thread,
with the clock it reads and whether its allocations and `fopen` succeed. -/
inductive Move where
  | lookupCache (w : Nat) (domain : CStr) (nowNs : UInt64)
  | lookupTree (w : Nat) (now : UInt32)
  | storeVerdict (w : Nat) (nowNs : UInt64)
  | flag (w : Nat) (a : Alloc) (now : UInt32)
  | claim (w : Nat) (a : Alloc)
  | queue (w : Nat) (argsOk threadOk : Bool)
  | answer (i : Nat) (result : GravityResult)
  | insert (i : Nat) (a : Alloc) (now : UInt32)
  | invalidate (i : Nat)
  | append (i : Nat) (openOk : Bool)
  | markDone (i : Nat)
  | startReload (a : Alloc)
  | readBlocklist (file : Option CStr) (now : UInt32)
  | readLearned (now : UInt32)
  | swap
  | clearVerdicts
  | clearAnswers
  deriving DecidableEq, Repr

/-- The claims, the slots and the running checks, as `Gravity` has them. -/
def Threads.gravity (s : Threads) : Gravity := ⟨s.asked, s.permits, s.checks.map (·.domain)⟩

/-- Worker `w` moves on. -/
def Threads.at (s : Threads) (w : Nat) (stage : WorkerStage) : Threads :=
  { s with worker := Function.update s.worker w stage }

/-- The `i`-th gravity thread moves on. -/
def Threads.checkAt (s : Threads) (i : Nat) (domain : CStr) (stage : CheckStage) : Threads :=
  { s with checks := s.checks.set i ⟨domain, stage⟩ }

/-! ## The moves of a worker -/

def Threads.lookupCache (s : Threads) (w : Nat) (domain : CStr) (nowNs : UInt64) : Threads :=
  match s.worker w with
  | .idle =>
    let (hit, cache) := checkCached s.queryCache nowNs domain
    { s with queryCache := cache }.at w (if hit.isSome then .idle else .missed domain)
  | _ => s

def Threads.lookupTree (s : Threads) (w : Nat) (now : UInt32) : Threads :=
  match s.worker w with
  | .missed domain =>
    let (r, tree) := radixLookup s.tree now domain
    { s with tree := tree }.at w (.looked domain r)
  | _ => s

/-- A match, of whatever status, is not vetted: the worker is done with it. -/
def Threads.storeVerdict (s : Threads) (w : Nat) (nowNs : UInt64) : Threads :=
  match s.worker w with
  | .looked domain r =>
    { s with queryCache := cacheVerdict s.queryCache nowNs domain r }.at w
      (if r.matched then .idle else .unmatched domain)
  | _ => s

def Threads.flag (score : Scorer) (s : Threads) (w : Nat) (a : Alloc) (now : UInt32) : Threads :=
  match s.worker w with
  | .unmatched domain =>
    { s with tree := runHeuristics score a s.tree now domain }.at w (.flagged domain)
  | _ => s

def Threads.claim (s : Threads) (w : Nat) (a : Alloc) : Threads :=
  match s.worker w with
  | .flagged domain =>
    let (won, asked) := askedCacheTryClaim a s.asked domain
    { s with asked := asked }.at w (if won then .claimed domain else .idle)
  | _ => s

/-- A thread that was started is in `query_pi_gravity`. -/
def Threads.queue (s : Threads) (w : Nat) (argsOk threadOk : Bool) : Threads :=
  match s.worker w with
  | .claimed domain =>
    let g := queueGravityCheck argsOk threadOk s.gravity domain
    let started := (g.threads.drop s.checks.length).map (⟨·, .asking⟩)
    { s with asked := g.asked, permits := g.permits, checks := s.checks ++ started }.at w .idle
  | _ => s

/-! ## The moves of a gravity thread -/

def Threads.answer (s : Threads) (i : Nat) (result : GravityResult) : Threads :=
  match s.checks[i]? with
  | some ⟨domain, .asking⟩ =>
    s.checkAt i domain (if result = .blocked then .confirmed else .finishing result)
  | _ => s

def Threads.insert (s : Threads) (i : Nat) (a : Alloc) (now : UInt32) : Threads :=
  match s.checks[i]? with
  | some ⟨domain, .confirmed⟩ =>
    let (rc, tree) := gravityInsert a s.tree now domain
    { s with tree := tree }.checkAt i domain (.inserted rc now)
  | _ => s

def Threads.invalidate (s : Threads) (i : Nat) : Threads :=
  match s.checks[i]? with
  | some ⟨domain, .inserted rc now⟩ =>
    let answerCache := s.answerCache.map fun cache => (answerCacheInvalidate cache domain).2
    { s with answerCache := answerCache }.checkAt i domain (.invalidated rc now)
  | _ => s

/-- `if (rc == 0) append_learned_entry(...)` -/
def Threads.append (s : Threads) (i : Nat) (openOk : Bool) : Threads :=
  match s.checks[i]? with
  | some ⟨domain, .invalidated rc now⟩ =>
    let learned :=
      if rc = 0 then appendLearnedEntry openOk s.learned .blocked .piGravity now now 1 0 domain
      else s.learned
    { s with learned := learned }.checkAt i domain (.finishing .blocked)
  | _ => s

def Threads.markDone (s : Threads) (i : Nat) : Threads :=
  match s.checks[i]? with
  | some ⟨domain, .finishing result⟩ =>
    let g := gravityFinish s.gravity i domain result
    { s with asked := g.asked, permits := g.permits, checks := s.checks.eraseIdx i }
  | _ => s

/-! ## The moves of the reload thread -/

/-- The file was found to be newer: a builder, unless memory is out. -/
def Threads.startReload (s : Threads) (a : Alloc) : Threads :=
  match s.reload, radixBuilderInit a with
  | .idle, some b => { s with reload := .started b }
  | _, _ => s

def Threads.readBlocklist (s : Threads) (file : Option CStr) (now : UInt32) : Threads :=
  match s.reload with
  | .started b => { s with reload := .halfRead (loadBlocklist now b file).2 }
  | _ => s

def Threads.readLearned (s : Threads) (now : UInt32) : Threads :=
  match s.reload with
  | .halfRead b => { s with reload := .read (loadBlocklist now b s.learned).2 }
  | _ => s

def Threads.swap (s : Threads) : Threads :=
  match s.reload with
  | .read b => { s with tree := (radixTreeSwap s.tree b).1, reload := .swapped }
  | _ => s

def Threads.clearVerdicts (s : Threads) : Threads :=
  match s.reload with
  | .swapped => { s with queryCache := s.queryCache.map dnsCacheClear, reload := .cleared }
  | _ => s

def Threads.clearAnswers (s : Threads) : Threads :=
  match s.reload with
  | .cleared => { s with answerCache := s.answerCache.map answerCacheClear, reload := .idle }
  | _ => s

/-- One move of one thread. -/
def Threads.step (score : Scorer) (s : Threads) : Move → Threads
  | .lookupCache w domain nowNs => s.lookupCache w domain nowNs
  | .lookupTree w now => s.lookupTree w now
  | .storeVerdict w nowNs => s.storeVerdict w nowNs
  | .flag w a now => s.flag score w a now
  | .claim w a => s.claim w a
  | .queue w argsOk threadOk => s.queue w argsOk threadOk
  | .answer i result => s.answer i result
  | .insert i a now => s.insert i a now
  | .invalidate i => s.invalidate i
  | .append i openOk => s.append i openOk
  | .markDone i => s.markDone i
  | .startReload a => s.startReload a
  | .readBlocklist file now => s.readBlocklist file now
  | .readLearned now => s.readLearned now
  | .swap => s.swap
  | .clearVerdicts => s.clearVerdicts
  | .clearAnswers => s.clearAnswers

/-- Nothing runs. -/
def Threads.start (tree : RadixTree) (queryCache : Option (DnsCache proxyCacheCapacity))
    (answerCache : Option (AnswerCache proxyCacheCapacity)) (learned : Option CStr) : Threads :=
  ⟨tree, queryCache, answerCache, .empty, maxConcurrentGravityChecks, learned, fun _ => .idle, [],
    .idle⟩

/-! ## Moves in a row -/

section

variable {score : Scorer} {s : Threads}

@[simp] theorem Threads.at_worker (s : Threads) (w : Nat) (stage : WorkerStage) :
    (s.at w stage).worker w = stage := Function.update_self ..

/-- The moves of `check_domain` in a row. -/
theorem checkDomain_moves {w : Nat} (h : s.worker w = .idle) (domain : CStr) (nowNs : UInt64)
    (now : UInt32) :
    let s' := Lib.run (Threads.step score) s
      [.lookupCache w domain nowNs, .lookupTree w now, .storeVerdict w nowNs]
    let checked := checkDomain s.queryCache s.tree nowNs now domain
    s'.queryCache = checked.2.1 ∧ s'.tree = checked.2.2 ∧
      s'.worker w = if checked.1.matched then .idle else .unmatched domain := by
  intro s' checked
  cases hcached : checkCached s.queryCache nowNs domain with
  | mk hit cache =>
    cases hit with
    | some r =>
      -- a hit: the other two moves find the worker idle
      obtain ⟨action, ttl, -, rfl⟩ := checkCached_some (congrArg Prod.fst hcached)
      simp [s', checked, checkDomain, Threads.step, Threads.lookupCache, h, hcached,
        Threads.lookupTree, Threads.storeVerdict, Threads.at, CheckResult.ofCache]
    | none =>
      have hmatched : (CheckResult.ofTree domain (radixLookup s.tree now domain).1).matched =
          (radixLookup s.tree now domain).1.matched := by
        rw [CheckResult.ofTree]
        cases (radixLookup s.tree now domain).1.matched <;> rfl
      simp [s', checked, checkDomain, Threads.step, Threads.lookupCache, h, hcached,
        Threads.lookupTree, Threads.storeVerdict, Threads.at, hmatched]

/-- What a queued check does to the claims, the slots and the running checks. -/
theorem Threads.queue_gravity {w : Nat} {domain : CStr} (h : s.worker w = .claimed domain)
    (argsOk threadOk : Bool) :
    (s.queue w argsOk threadOk).gravity = queueGravityCheck argsOk threadOk s.gravity domain := by
  have hmap : ∀ ds : List CStr,
      (s.checks ++ ds.map fun d => (⟨d, .asking⟩ : GravityCheck)).map (·.domain) =
        s.gravity.threads ++ ds := by
    intro ds
    rw [List.map_append, List.map_map]
    exact congrArg (_ ++ ·) (List.map_id ds)
  have hlength : s.gravity.threads.length = s.checks.length := List.length_map _
  -- at most one thread is added, and behind the others
  have hthreads : s.gravity.threads ++
      (queueGravityCheck argsOk threadOk s.gravity domain).threads.drop s.checks.length =
        (queueGravityCheck argsOk threadOk s.gravity domain).threads := by
    rw [← hlength]
    rw [queueGravityCheck]
    split
    · rw [List.drop_length, List.append_nil]
    · split
      · rw [List.drop_left]
      · rw [List.drop_length, List.append_nil]
  rw [Threads.queue]
  rw [h]
  show (⟨_, _, List.map _ (s.checks ++ _)⟩ : Gravity) = _
  rw [hmap, hthreads]
  rfl

/-- The moves of the vetting in a row. -/
theorem vet_moves {p : Proxy} {env : Env} {w : Nat} {domain : CStr}
    (h : s.worker w = .unmatched domain) (htree : p.tree = s.tree)
    (hgravity : p.gravity = s.gravity) :
    let s' := Lib.run (Threads.step score) s
      [.flag w env.treeAlloc env.now, .claim w env.claimAlloc, .queue w env.argsOk env.threadOk]
    let vetted := (vet score p env domain).1
    s'.tree = vetted.tree ∧ s'.gravity = vetted.gravity := by
  intro s' vetted
  cases hclaim : askedCacheTryClaim env.claimAlloc s.asked domain with
  | mk won asked =>
    -- a lost claim leaves nothing to queue
    cases won with
    | false =>
      simp [s', vetted, vet, Threads.step, Threads.flag, h, htree, hgravity, hclaim,
        Threads.claim, Threads.queue, Threads.at, Threads.gravity]
    | true =>
      have hclaimed : ((s.flag score w env.treeAlloc env.now).claim w env.claimAlloc).worker w =
          .claimed domain := by
        simp [Threads.flag, h, Threads.claim, hclaim, Threads.at]
      have hqueue := Threads.queue_gravity hclaimed env.argsOk env.threadOk
      constructor
      · simp [s', vetted, vet, Threads.step, Threads.flag, h, htree, hgravity, hclaim,
          Threads.claim, Threads.queue, Threads.at, Threads.gravity]
      · refine hqueue.trans ?_
        simp [vetted, vet, Threads.flag, h, hgravity, hclaim, Threads.claim, Threads.at,
          Threads.gravity]

/-- The moves of `gravity_check_thread` in a row, and the line it appends. -/
theorem gravityCheckThread_moves {p : Proxy} {i : Nat} {domain : CStr} {a : Alloc} {now : UInt32}
    {result : GravityResult} {openOk : Bool} (h : s.checks[i]? = some ⟨domain, .asking⟩)
    (htree : p.tree = s.tree) (hcache : p.answerCache = s.answerCache)
    (hgravity : p.gravity = s.gravity) :
    let s' := Lib.run (Threads.step score) s
      [.answer i result, .insert i a now, .invalidate i, .append i openOk, .markDone i]
    let checked := gravityCheckThread p a now i domain result
    s'.tree = checked.tree ∧ s'.answerCache = checked.answerCache ∧ s'.gravity = checked.gravity ∧
      s'.learned =
        if result = .blocked ∧ (gravityInsert a s.tree now domain).1 = 0 then
          appendLearnedEntry openOk s.learned .blocked .piGravity now now 1 0 domain
        else s.learned := by
  intro s' checked
  obtain ⟨hi, hget⟩ := List.getElem?_eq_some_iff.mp h
  have herase : ∀ check : GravityCheck, (s.checks.set i check).eraseIdx i = s.checks.eraseIdx i := by
    intro check
    rw [List.eraseIdx_set_eq]
  have hmap : (s.checks.eraseIdx i).map (·.domain) = (s.checks.map (·.domain)).eraseIdx i :=
    (List.eraseIdx_map ..).symm
  -- a promotion that fails stops the thread before the cache and the file
  cases result with
  | blocked =>
    by_cases hrc : (gravityInsert a s.tree now domain).1 = 0 <;>
      simp [s', checked, Threads.step, Threads.answer, hget, Threads.checkAt, Threads.insert,
      Threads.invalidate, Threads.append, Threads.markDone, gravityCheckThread, htree, hcache,
      hgravity, Threads.gravity, gravityFinish, hi, herase, hmap, hrc]
  | clean | unreachable =>
    simp [s', checked, Threads.step, Threads.answer, hget, Threads.checkAt, Threads.insert,
      Threads.invalidate, Threads.append, Threads.markDone, gravityCheckThread, htree, hcache,
      hgravity, Threads.gravity, gravityFinish, hi, herase, hmap]

end

end Nyet
