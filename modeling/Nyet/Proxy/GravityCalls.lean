import Nyet.Lib.Parties
import Nyet.Lib.Run
import Nyet.Proxy.Decision

/-!
# `queue_gravity_check` and `gravity_check_thread`, one shared step at a time

A permit and a claim go from hand to hand here: the worker that calls
`queue_gravity_check` takes a permit with `WaitForSingleObject`, may fail at either
allocation, and otherwise leaves both to a thread, which gives the claim up in
`asked_cache_mark_done` and the permit after it. A `CheckMove` is one of these steps, of one
worker or one thread; a move that its party is not at leaves the state alone, so every list
of moves is an interleaving.

Which calls are made is up to a gate. That of `process_request` is
`asked_cache_try_claim`.
-/

namespace Nyet

/-- `char domain[MAX_DOMAIN_LEN]`, terminated. -/
abbrev CtxDomain := { domain : CStr // domain.length < maxDomainLen }

/-- `strncpy_s(args->domain, sizeof(args->domain), domain, _TRUNCATE)` -/
def CtxDomain.copy (d : CtxDomain) : CtxDomain :=
  ⟨truncated d.1, by
    rw [truncated]
    rw [List.length_take]
    unfold maxDomainLen
    omega⟩

@[simp] theorem CtxDomain.copy_eq (d : CtxDomain) : d.copy = d :=
  Subtype.ext (List.take_of_length_le (Nat.le_sub_one_of_lt d.2))

/-- Where a worker stands in `queue_gravity_check`. -/
inductive CallStage where
  | idle
  /-- Called, before `WaitForSingleObject`. -/
  | called (domain : CtxDomain)
  /-- No permit was free: before `asked_cache_mark_done`. -/
  | refused (domain : CtxDomain)
  /-- Before `malloc`. -/
  | permitted (domain : CtxDomain)
  /-- Before `_beginthreadex`. -/
  | allocated (domain : CtxDomain)
  /-- One of the two has failed: before `ReleaseSemaphore`. -/
  | failed (domain : CtxDomain)
  deriving DecidableEq, Repr

/-- Where a gravity thread stands. -/
inductive CheckProgress where
  /-- Before `asked_cache_mark_done`. -/
  | asking
  /-- Before `ReleaseSemaphore`. -/
  | marked
  /-- It has returned. -/
  | finished
  deriving DecidableEq, Repr

/-- A gravity thread that was started. -/
structure StartedCheck where
  domain : CtxDomain
  progress : CheckProgress
  deriving DecidableEq, Repr

/-- The claims and the semaphore's count, the workers, and every thread started so far. -/
structure Checking where
  asked : AskedCache
  permits : Nat
  workers : List CallStage
  threads : List StartedCheck

/-- What lets a worker into `queue_gravity_check`. -/
abbrev Gate := Alloc → AskedCache → CStr → Bool × AskedCache

/-- One step of worker `w` or of the `i`-th thread. -/
inductive CheckMove where
  | enter (w : Nat) (a : Alloc) (domain : CtxDomain)
  | wait (w : Nat)
  | giveBack (w : Nat)
  | malloc (w : Nat) (ok : Bool)
  | beginThread (w : Nat) (ok : Bool)
  | release (w : Nat)
  | markDone (i : Nat) (result : GravityResult)
  | finish (i : Nat)
  deriving DecidableEq, Repr

/-- `ReleaseSemaphore(g_gravity_check_semaphore, 1, NULL)`: a count at its maximum stays. -/
def releaseSemaphore (permits : Nat) : Nat :=
  if permits < maxConcurrentGravityChecks then permits + 1 else permits

/-- Worker `w` moves on. -/
def Checking.at (s : Checking) (w : Nat) (stage : CallStage) : Checking :=
  { s with workers := s.workers.set w stage }

/-- The `i`-th thread moves on. -/
def Checking.threadAt (s : Checking) (i : Nat) (t : StartedCheck) : Checking :=
  { s with threads := s.threads.set i t }

/-! ## The moves of a worker -/

def Checking.enter (gate : Gate) (s : Checking) (w : Nat) (a : Alloc) (domain : CtxDomain) :
    Checking :=
  match s.workers[w]? with
  | some .idle =>
    let (enters, asked) := gate a s.asked domain.1
    { s with asked := asked }.at w (if enters then .called domain else .idle)
  | _ => s

/-- `WaitForSingleObject(g_gravity_check_semaphore, 0)` -/
def Checking.wait (s : Checking) (w : Nat) : Checking :=
  match s.workers[w]? with
  | some (.called domain) =>
    if s.permits = 0 then s.at w (.refused domain)
    else { s with permits := s.permits - 1 }.at w (.permitted domain)
  | _ => s

def Checking.giveBack (s : Checking) (w : Nat) : Checking :=
  match s.workers[w]? with
  | some (.refused domain) =>
    { s with asked := askedCacheMarkDone s.asked domain.1 false }.at w .idle
  | _ => s

def Checking.malloc (s : Checking) (w : Nat) (ok : Bool) : Checking :=
  match s.workers[w]? with
  | some (.permitted domain) => s.at w (if ok then .allocated domain else .failed domain)
  | _ => s

/-- `_beginthreadex`; a thread that was started has the arguments to itself. -/
def Checking.beginThread (s : Checking) (w : Nat) (ok : Bool) : Checking :=
  match s.workers[w]? with
  | some (.allocated domain) =>
    let started : StartedCheck := ⟨domain.copy, .asking⟩
    if ok then { s with threads := s.threads ++ [started] }.at w .idle
    else s.at w (.failed domain)
  | _ => s

def Checking.release (s : Checking) (w : Nat) : Checking :=
  match s.workers[w]? with
  | some (.failed _) => { s with permits := releaseSemaphore s.permits }.at w .idle
  | _ => s

/-! ## The moves of a thread -/

/-- `asked_cache_mark_done(..., result != -1)`, after what the result was good for. -/
def Checking.markDone (s : Checking) (i : Nat) (result : GravityResult) : Checking :=
  match s.threads[i]? with
  | some ⟨domain, .asking⟩ =>
    let asked := askedCacheMarkDone s.asked domain.1 (result ≠ .unreachable)
    { s with asked := asked }.threadAt i ⟨domain, .marked⟩
  | _ => s

def Checking.finish (s : Checking) (i : Nat) : Checking :=
  match s.threads[i]? with
  | some ⟨domain, .marked⟩ =>
    { s with permits := releaseSemaphore s.permits }.threadAt i ⟨domain, .finished⟩
  | _ => s

/-- One move of one party. -/
def Checking.step (gate : Gate) (s : Checking) : CheckMove → Checking
  | .enter w a domain => s.enter gate w a domain
  | .wait w => s.wait w
  | .giveBack w => s.giveBack w
  | .malloc w ok => s.malloc w ok
  | .beginThread w ok => s.beginThread w ok
  | .release w => s.release w
  | .markDone i result => s.markDone i result
  | .finish i => s.finish i

/-- Nothing was asked yet, all permits are free. -/
def Checking.start (workers : Nat) : Checking :=
  ⟨.empty, maxConcurrentGravityChecks, List.replicate workers .idle, []⟩

/-! ## Permits -/

/-- The call has a permit that it has not handed on or given back. -/
def CallStage.holdsPermit : CallStage → Bool
  | .permitted _ | .allocated _ | .failed _ => true
  | .idle | .called _ | .refused _ => false

/-- Started and not finished. -/
def StartedCheck.unfinished (t : StartedCheck) : Bool := t.progress ≠ .finished

/-- How many permits there are: free, with calls in progress, and with threads. -/
def Checking.allPermits (s : Checking) : Nat :=
  s.permits + s.workers.countP CallStage.holdsPermit + s.threads.countP StartedCheck.unfinished

/-! ## Claims -/

/-- The call is for this domain, and has not failed. -/
def CallStage.answersFor (d : CStr) : CallStage → Bool
  | .called domain | .refused domain | .permitted domain | .allocated domain => domain.1 = d
  | .idle | .failed _ => false

/-- A check of the domain that has not marked it yet. -/
def StartedCheck.checks (d : CStr) (t : StartedCheck) : Bool :=
  t.domain.1 = d ∧ t.progress = .asking

theorem StartedCheck.checks_asking (d : CStr) (domain : CtxDomain) :
    StartedCheck.checks d ⟨domain, .asking⟩ = decide (domain.1 = d) := by
  simp [StartedCheck.checks]

theorem StartedCheck.checks_answered (d : CStr) (t : StartedCheck) (h : t.progress ≠ .asking) :
    t.checks d = false := by
  simp [StartedCheck.checks, h]

/-- How many calls and threads are to settle the claim of a domain. -/
def Checking.owners (s : Checking) (d : CStr) : Nat :=
  s.workers.countP (CallStage.answersFor d) + s.threads.countP (StartedCheck.checks d)

/-- The state a domain is in. -/
def Checking.state (s : Checking) (d : CStr) : Option AskedState := AskedCache.state s.asked d

/-! ## What a move of one party does to the counts -/

section

variable {s : Checking} {w i : Nat} {old : CallStage} {t : StartedCheck}

theorem Checking.allPermits_at (hw : s.workers[w]? = some old) (new : CallStage) :
    (s.at w new).allPermits + old.holdsPermit.toNat = s.allPermits + new.holdsPermit.toNat := by
  have hset := @Lib.countP_set_add _ CallStage.holdsPermit _ _ _ new hw
  unfold Checking.allPermits Checking.at
  dsimp only
  omega

theorem Checking.allPermits_threadAt (hi : s.threads[i]? = some t) (t' : StartedCheck) :
    (s.threadAt i t').allPermits + t.unfinished.toNat = s.allPermits + t'.unfinished.toNat := by
  have hset := @Lib.countP_set_add _ StartedCheck.unfinished _ _ _ t' hi
  unfold Checking.allPermits Checking.threadAt
  dsimp only
  omega

theorem Checking.owners_at (hw : s.workers[w]? = some old) (new : CallStage) (d : CStr) :
    (s.at w new).owners d + (old.answersFor d).toNat =
      s.owners d + (new.answersFor d).toNat := by
  have hset := @Lib.countP_set_add _ (CallStage.answersFor d) _ _ _ new hw
  unfold Checking.owners Checking.at
  dsimp only
  omega

theorem Checking.owners_threadAt (hi : s.threads[i]? = some t) (t' : StartedCheck)
    (d : CStr) :
    (s.threadAt i t').owners d + (t.checks d).toNat = s.owners d + (t'.checks d).toNat := by
  have hset := @Lib.countP_set_add _ (StartedCheck.checks d) _ _ _ t' hi
  unfold Checking.owners Checking.threadAt
  dsimp only
  omega

end

/-- The domain whose claim a move leaves without an owner: `malloc` or `_beginthreadex` has
failed. -/
def Checking.abandons (s : Checking) : CheckMove → Option CStr
  | .malloc w ok =>
    match s.workers[w]? with
    | some (.permitted domain) => if ok then none else some domain.1
    | _ => none
  | .beginThread w ok =>
    match s.workers[w]? with
    | some (.allocated domain) => if ok then none else some domain.1
    | _ => none
  | _ => none

/-! ## What a move can do -/

/-- A move and where it leads: its party was not at it, or one of the steps above. -/
inductive Checking.Moved (gate : Gate) (s : Checking) : CheckMove → Checking → Prop
  | stays (m : CheckMove) (hno : s.abandons m = none) : Moved gate s m s
  | enters {w : Nat} {a : Alloc} {domain : CtxDomain} (hw : s.workers[w]? = some .idle) :
    Moved gate s (.enter w a domain)
      (({ s with asked := (gate a s.asked domain.1).2 } : Checking).at w
        (if (gate a s.asked domain.1).1 then .called domain else .idle))
  | refused {w : Nat} {domain : CtxDomain} (hw : s.workers[w]? = some (.called domain))
    (hpermits : s.permits = 0) : Moved gate s (.wait w) (s.at w (.refused domain))
  | permitted {w : Nat} {domain : CtxDomain} (hw : s.workers[w]? = some (.called domain))
    (hpermits : 0 < s.permits) :
    Moved gate s (.wait w)
      (({ s with permits := s.permits - 1 } : Checking).at w (.permitted domain))
  | givesBack {w : Nat} {domain : CtxDomain} (hw : s.workers[w]? = some (.refused domain)) :
    Moved gate s (.giveBack w)
      (({ s with asked := askedCacheMarkDone s.asked domain.1 false } : Checking).at w .idle)
  | allocates {w : Nat} {domain : CtxDomain} (hw : s.workers[w]? = some (.permitted domain)) :
    Moved gate s (.malloc w true) (s.at w (.allocated domain))
  | mallocFails {w : Nat} {domain : CtxDomain} (hw : s.workers[w]? = some (.permitted domain)) :
    Moved gate s (.malloc w false) (s.at w (.failed domain))
  | starts {w : Nat} {domain : CtxDomain} (hw : s.workers[w]? = some (.allocated domain)) :
    Moved gate s (.beginThread w true)
      (({ s with threads := s.threads ++ [⟨domain, .asking⟩] } : Checking).at w .idle)
  | threadFails {w : Nat} {domain : CtxDomain} (hw : s.workers[w]? = some (.allocated domain)) :
    Moved gate s (.beginThread w false) (s.at w (.failed domain))
  | releases {w : Nat} {domain : CtxDomain} (hw : s.workers[w]? = some (.failed domain)) :
    Moved gate s (.release w)
      (({ s with permits := releaseSemaphore s.permits } : Checking).at w .idle)
  | marks {i : Nat} {domain : CtxDomain} {result : GravityResult}
    (hi : s.threads[i]? = some ⟨domain, .asking⟩) :
    Moved gate s (.markDone i result)
      (({ s with asked := askedCacheMarkDone s.asked domain.1 (result ≠ .unreachable) } :
        Checking).threadAt i ⟨domain, .marked⟩)
  | finishes {i : Nat} {domain : CtxDomain} (hi : s.threads[i]? = some ⟨domain, .marked⟩) :
    Moved gate s (.finish i)
      (({ s with permits := releaseSemaphore s.permits } : Checking).threadAt i
        ⟨domain, .finished⟩)

section

variable (gate : Gate) (s : Checking) (w i : Nat)

theorem Checking.enter_moved (a : Alloc) (domain : CtxDomain) :
    Checking.Moved gate s (.enter w a domain) (s.enter gate w a domain) := by
  rw [Checking.enter]
  split
  case h_1 hw => exact .enters hw
  case h_2 => exact .stays _ rfl

theorem Checking.wait_moved : Checking.Moved gate s (.wait w) (s.wait w) := by
  rw [Checking.wait]
  split
  case h_1 domain hw =>
    split
    case isTrue hpermits => exact .refused hw hpermits
    case isFalse hpermits => exact .permitted hw (Nat.pos_of_ne_zero hpermits)
  case h_2 => exact .stays _ rfl

theorem Checking.giveBack_moved : Checking.Moved gate s (.giveBack w) (s.giveBack w) := by
  rw [Checking.giveBack]
  split
  case h_1 domain hw => exact .givesBack hw
  case h_2 => exact .stays _ rfl

/-- A worker without a permit cannot abandon a claim. -/
theorem Checking.malloc_moved (ok : Bool) : Checking.Moved gate s (.malloc w ok) (s.malloc w ok) := by
  rw [Checking.malloc]
  split
  case h_1 domain hw =>
    cases ok with
    | true => exact .allocates hw
    | false => exact .mallocFails hw
  case h_2 hno =>
    refine .stays _ ?_
    unfold Checking.abandons
    dsimp only
    split
    case h_1 domain hw => exact absurd hw (hno domain)
    case h_2 => rfl

/-- Nor can one that has no arguments for the thread. -/
theorem Checking.beginThread_moved (ok : Bool) :
    Checking.Moved gate s (.beginThread w ok) (s.beginThread w ok) := by
  rw [Checking.beginThread]
  split
  case h_1 domain hw =>
    cases ok with
    | true =>
      rw [CtxDomain.copy_eq]
      exact .starts hw
    | false => exact .threadFails hw
  case h_2 hno =>
    refine .stays _ ?_
    unfold Checking.abandons
    dsimp only
    split
    case h_1 domain hw => exact absurd hw (hno domain)
    case h_2 => rfl

theorem Checking.release_moved : Checking.Moved gate s (.release w) (s.release w) := by
  rw [Checking.release]
  split
  case h_1 domain hw => exact .releases hw
  case h_2 => exact .stays _ rfl

theorem Checking.markDone_moved (result : GravityResult) :
    Checking.Moved gate s (.markDone i result) (s.markDone i result) := by
  rw [Checking.markDone]
  split
  case h_1 domain hi => exact .marks hi
  case h_2 => exact .stays _ rfl

theorem Checking.finish_moved : Checking.Moved gate s (.finish i) (s.finish i) := by
  rw [Checking.finish]
  split
  case h_1 domain hi => exact .finishes hi
  case h_2 => exact .stays _ rfl

/-- **A step is one of these.** -/
theorem Checking.moved (m : CheckMove) : Checking.Moved gate s m (s.step gate m) := by
  cases m with
  | enter w a domain => exact s.enter_moved gate w a domain
  | wait w => exact s.wait_moved gate w
  | giveBack w => exact s.giveBack_moved gate w
  | malloc w ok => exact s.malloc_moved gate w ok
  | beginThread w ok => exact s.beginThread_moved gate w ok
  | release w => exact s.release_moved gate w
  | markDone i result => exact s.markDone_moved gate i result
  | finish i => exact s.finish_moved gate i

end

/-! ## A call, and a thread, in one go -/

/-- The claims, the permits and the unfinished threads, as `Gravity` has them. -/
def Checking.gravity (s : Checking) : Gravity :=
  ⟨s.asked, s.permits, (s.threads.filter StartedCheck.unfinished).map (·.domain.1)⟩

section

variable {gate : Gate} {s : Checking} {w i : Nat} {domain : CtxDomain}

theorem releaseSemaphore_of_lt {permits : Nat} (h : permits < maxConcurrentGravityChecks) :
    releaseSemaphore permits = permits + 1 := if_pos h

/-- A permit that was taken is given back. -/
theorem releaseSemaphore_taken {permits : Nat} (hpos : permits ≠ 0)
    (hmax : permits ≤ maxConcurrentGravityChecks) : releaseSemaphore (permits - 1) = permits := by
  rw [releaseSemaphore_of_lt (by omega)]
  omega

/-- **The moves of a call in a row** are `queue_gravity_check`. -/
theorem queueGravityCheck_moves (hw : s.workers[w]? = some (.called domain))
    (hmax : s.permits ≤ maxConcurrentGravityChecks) (argsOk threadOk : Bool) :
    (Lib.run (Checking.step gate) s
      [.wait w, .giveBack w, .malloc w argsOk, .beginThread w threadOk, .release w]).gravity =
      queueGravityCheck argsOk threadOk s.gravity domain.1 := by
  obtain ⟨hlt, hget⟩ := List.getElem?_eq_some_iff.mp hw
  have htruncated : truncated domain.1 = domain.1 := congrArg Subtype.val domain.copy_eq
  -- no permit at once, or a permit that is given back if memory or the thread cannot be had
  by_cases hzero : s.permits = 0
  · simp [Checking.step, Checking.wait, hget, hzero, Checking.giveBack, Checking.malloc,
      Checking.beginThread, Checking.release, Checking.at, hlt, Checking.gravity,
      queueGravityCheck]
  · have htaken := releaseSemaphore_taken hzero hmax
    cases argsOk with
    | true =>
      cases threadOk with
      | true =>
        simp [Checking.step, Checking.wait, hget, hzero, Checking.giveBack, Checking.malloc,
          Checking.beginThread, Checking.release, Checking.at, hlt, Checking.gravity,
          queueGravityCheck, StartedCheck.unfinished, htruncated]
      | false =>
        simp [Checking.step, Checking.wait, hget, hzero, Checking.giveBack, Checking.malloc,
          Checking.beginThread, Checking.release, Checking.at, hlt, Checking.gravity,
          queueGravityCheck, htaken]
    | false =>
      simp [Checking.step, Checking.wait, hget, hzero, Checking.giveBack, Checking.malloc,
        Checking.beginThread, Checking.release, Checking.at, hlt, Checking.gravity,
        queueGravityCheck, htaken]

/-- **The last two moves of a thread** are the end of `gravity_check_thread`; `k` is its place
among the unfinished ones. -/
theorem gravityFinish_moves (hi : s.threads[i]? = some ⟨domain, .asking⟩)
    (hmax : s.permits < maxConcurrentGravityChecks) (result : GravityResult) {k : Nat}
    (hk : k = ((s.threads.take i).filter StartedCheck.unfinished).length) :
    (Lib.run (Checking.step gate) s [.markDone i result, .finish i]).gravity =
      gravityFinish s.gravity k domain.1 result := by
  obtain ⟨hlt, hget⟩ := List.getElem?_eq_some_iff.mp hi
  -- the thread that is through drops out of the unfinished ones at its own place
  have hthreads : ((s.threads.set i ⟨domain, .finished⟩).filter StartedCheck.unfinished).map
      (·.domain.1) = s.gravity.threads.eraseIdx k := by
    have hsplit : s.threads = s.threads.take i ++ ⟨domain, .asking⟩ :: s.threads.drop (i + 1) := by
      rw [← hget, List.getElem_cons_drop, List.take_append_drop]
    have hgone : StartedCheck.unfinished ⟨domain, .finished⟩ = false := rfl
    have hthere : StartedCheck.unfinished ⟨domain, .asking⟩ = true := rfl
    rw [Checking.gravity]
    dsimp only
    rw [List.set_eq_take_append_cons_drop, if_pos hlt, List.filter_append,
      List.filter_cons_of_neg (by rw [hgone]; exact Bool.false_ne_true)]
    conv_rhs => rw [hsplit]
    rw [List.filter_append, List.filter_cons_of_pos hthere, List.map_append, List.map_append,
      List.map_cons, List.eraseIdx_append_of_length_le (by rw [hk, List.length_map]), hk,
      List.length_map, Nat.sub_self, List.eraseIdx_cons_zero]
  have hreleased : releaseSemaphore s.permits = s.gravity.permits + 1 := releaseSemaphore_of_lt hmax
  rw [gravityFinish]
  rw [← hthreads, ← hreleased]
  simp [Checking.step, Checking.markDone, hlt, hget, Checking.threadAt, Checking.finish,
    Checking.gravity]

end

end Nyet
