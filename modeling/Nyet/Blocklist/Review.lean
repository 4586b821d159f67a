import Nyet.Blocklist.Text
import Nyet.Lib.Dict

/-!
# The review session (`review_tool.py`)

`interactive_review` goes through the domains of `review.tsv` that the other two files do not
list, the most frequent first, and asks for each what to do with it. Every line the session
adds to `blocklist.tsv` or `learned.tsv` comes from `append_to_list`. `reviewLoop_kept` says
what the loop has written and passed over: the two files are what they were, followed by the
lines the keys stand for, and a domain nobody was asked about is under a root of the session.

Which key goes with which domain is a matter of the queue and of what is typed alone
(`dialogue`), and `interactiveReview_reviewed` says that the session goes by it.
-/

namespace Nyet

open Lib

/-! ## The script -/

/-- `BLOCK_FILE` and `LEARNED_FILE` -/
inductive ListPath where
  | blockFile
  | learnedFile
  deriving DecidableEq, Repr

/-- `PROTECTED_DOMAINS` of the review tool. -/
def protectedInfra : List (List Char) := ["cloudflare.com", "googlevideo.com"].map String.toList

/-- `domain == root or domain.endswith("." + root)` -/
def Under (domain root : List Char) : Prop := domain = root ∨ '.' :: root <:+ domain

instance (domain root : List Char) : Decidable (Under domain root) :=
  inferInstanceAs (Decidable (_ ∨ _))

/-- `is_protected_domain` -/
def isProtectedDomain (py : Python) (domain : List Char) : Bool :=
  protectedInfra.any fun d => Under (py.lower domain) d

/-- `load_processed_domains` -/
def loadProcessedDomains (py : Python) (files : ListPath → Option CStr) : List (List Char) :=
  [ListPath.blockFile, .learnedFile].flatMap fun filepath =>
    match files filepath with
    | none => []
    | some file => (fileLines py file).filterMap (domainKey py)

/-- The line `append_to_list` writes. -/
def listLine (domain : List Char) (flag : Char) (t : Int) (note : List Char) : List Char :=
  let time := (toString t).toList
  "B\t".toList ++ domain ++ "\t".toList ++ [flag] ++ "\t".toList ++ time ++ "\t".toList ++ time ++
    "\t1\t60\t".toList ++ note ++ "\n".toList

/-- `append_to_list` at time `t`; `false` if `encoding='ascii'` makes it raise. The file is
opened, and so created, before it does. -/
def appendToList (files : ListPath → Option CStr) (filepath : ListPath) (domain : List Char)
    (flag : Char) (note : List Char) (t : Int) : (ListPath → Option CStr) × Bool :=
  let line := listLine domain flag t note
  let file := (files filepath).getD []
  if line.all fun c => c.toNat < 128 then (Function.update files filepath (some (file ++ utf8 line)), true)
  else (Function.update files filepath (some file), false)

/-- What the user can do with a domain, `[q]uit` aside. -/
inductive Press where
  | block
  | nuke (target : List Char)
  | learn
  | skip
  deriving DecidableEq, Repr

/-- A domain the session is done with: the key pressed for it and when, or `none` if it was
passed over. -/
structure Reviewed where
  domain : List Char
  pressed : Option (Press × Int)
  deriving DecidableEq, Repr

/-- `suggested_root` -/
def suggestedRoot (domain : List Char) : List Char :=
  let parts := domain.splitOn '.'
  if 1 < parts.length then ['.'].intercalate (parts.drop (parts.length - 2)) else domain

/-- What comes of the prompts at a domain. -/
inductive Prompted where
  | ended
  | quit
  | pressed (press : Press) (time : Int) (rest : List TypedAnswer)
  deriving DecidableEq, Repr

/-- The `while True` loop at a domain, up to the key it is left with. -/
def prompt (py : Python) (domain : List Char) : List TypedAnswer → Prompted
  | [] => .ended
  | answer :: rest =>
    let choice := py.lower (pyStrip answer.typed)
    if choice = ['b'] then .pressed .block answer.time rest
    else if choice = ['n'] then
      match rest with
      | [] => .ended
      | target :: rest =>
        let typed := py.lower (pyStrip target.typed)
        .pressed (.nuke (if typed = [] then suggestedRoot domain else typed)) target.time rest
    else if choice = ['l'] then .pressed .learn answer.time rest
    else if choice = ['s'] then .pressed .skip answer.time rest
    else if choice = ['q'] then .quit
    else prompt py domain rest

/-- The variables of the loop over the queue, and what has been done with the domains so far. -/
structure Session where
  files : ListPath → Option CStr
  handledDomains : List (List Char)
  nukedRoots : List (List Char)
  reviewed : List Reviewed

section Loop

variable (py : Python) (classify : List Char → List Char)

/-- What a key does; `false` if `append_to_list` raises. `classify` is `classify_domain`. -/
def takeUp (s : Session) (domain : List Char) (t : Int) (press : Press) : Session × Bool :=
  let suggestedNote := classify domain
  let s := { s with reviewed := s.reviewed ++ [Reviewed.mk domain (some (press, t))] }
  match press with
  | .block =>
    match appendToList s.files .blockFile domain 'S' suggestedNote t with
    | (files, false) => ({ s with files := files }, false)
    | (files, true) =>
      ({ s with
          files := files
          handledDomains := domain :: s.handledDomains
          nukedRoots := domain :: s.nukedRoots }, true)
  | .nuke target =>
    match appendToList s.files .blockFile target 'S'
        ("blanket_nuke (".toList ++ suggestedNote ++ ")".toList) t with
    | (files, false) => ({ s with files := files }, false)
    | (files, true) =>
      ({ s with
          files := files
          handledDomains := domain :: s.handledDomains
          nukedRoots := target :: s.nukedRoots }, true)
  | .learn =>
    match appendToList s.files .learnedFile domain 'G'
        ("manually_allowed (".toList ++ suggestedNote ++ ")".toList) t with
    | (files, false) => ({ s with files := files }, false)
    | (files, true) =>
      ({ s with files := files, handledDomains := domain :: s.handledDomains }, true)
  | .skip => ({ s with handledDomains := domain :: s.handledDomains }, true)

/-- A domain under a root of the session is handled without a question. -/
def passOver (s : Session) (domain : List Char) : Session :=
  { s with
    handledDomains := domain :: s.handledDomains
    reviewed := s.reviewed ++ [Reviewed.mk domain none] }

/-- The loop over the queue; `false` if it ends in an exception. -/
def reviewLoop (s : Session) : List (List Char) → List TypedAnswer → Session × Bool
  | [], _ => (s, true)
  | domain :: queue, answers =>
    if ∃ root ∈ s.nukedRoots, Under domain root then reviewLoop (passOver s domain) queue answers
    else
      match prompt py domain answers with
      | .ended => (s, false)
      | .quit => (s, true)
      | .pressed press time answers =>
        match takeUp classify s domain time press with
        | (s, false) => (s, false)
        | (s, true) => reviewLoop s queue answers

/-- The files after `interactive_review`, the roots nuked and the domains gone through. -/
structure ReviewEnd where
  files : ListPath → Option CStr
  review : Option CStr
  nukedRoots : List (List Char)
  reviewed : List Reviewed

/-- `domain_counts`, in the order in which the domains come up. -/
def domainCounts (lines : List (List Char)) : Dict (List Char) Nat :=
  (lines.filterMap (domainKey py)).foldl (fun m d => m.set d ((m.get? d).getD 0 + 1)) []

/-- The lines that go back into `review.tsv`. -/
def keptLines (processed handled : List (List Char)) (lines : List (List Char)) :
    List (List Char) :=
  lines.filter fun line =>
    match domainKey py line with
    | some domain => domain ∉ handled ∧ domain ∉ processed
    | none => false

/-- `interactive_review` -/
def interactiveReview (files : ListPath → Option CStr) (review : Option CStr)
    (answers : List TypedAnswer) : ReviewEnd :=
  if review.getD [] = [] then ⟨files, review, [], []⟩
  else
    let processed := loadProcessedDomains py files
    let lines := fileLines py (review.getD [])
    let counts := domainCounts py lines
    let queue := counts.keys.filter (· ∉ processed)
    let protectedHits := queue.filter (isProtectedDomain py ·)
    let queue := queue.filter (· ∉ protectedHits)
    if queue = [] then ⟨files, some [], [], []⟩
    else
      let count := fun d => (counts.get? d).getD 0
      let sorted := queue.mergeSort fun a b => count b ≤ count a
      match reviewLoop py classify ⟨files, protectedHits, [], []⟩ sorted answers with
      | (s, false) => ⟨s.files, review, s.nukedRoots, s.reviewed⟩
      | (s, true) =>
        ⟨s.files, some (utf8 (keptLines py processed s.handledDomains lines).flatten),
          s.nukedRoots, s.reviewed⟩

/-! ### The queue -/

/-- `protected_hits` -/
def protectedHits (processed lines : List (List Char)) : List (List Char) :=
  ((domainCounts py lines).keys.filter (· ∉ processed)).filter (isProtectedDomain py ·)

/-- The queue, before it is sorted. -/
def openQueue (processed lines : List (List Char)) : List (List Char) :=
  ((domainCounts py lines).keys.filter (· ∉ processed)).filter
    (· ∉ protectedHits py processed lines)

/-- `queue.sort(key=lambda d: domain_counts[d], reverse=True)` -/
def sortedQueue (processed lines : List (List Char)) : List (List Char) :=
  let count := fun d => ((domainCounts py lines).get? d).getD 0
  (openQueue py processed lines).mergeSort fun a b => count b ≤ count a

/-- The domains the session goes through. -/
def reviewQueue (files : ListPath → Option CStr) (review : Option CStr) : List (List Char) :=
  if review.getD [] = [] then []
  else sortedQueue py (loadProcessedDomains py files) (fileLines py (review.getD []))

end Loop

/-! ## What the session writes -/

/-- A call of `append_to_list`. -/
structure Writing where
  filepath : ListPath
  domain : List Char
  flag : Char
  time : Int
  note : List Char

/-- The line that is written, if it can be. -/
def Writing.line (w : Writing) : Option (List Char) :=
  let line := listLine w.domain w.flag w.time w.note
  if line.all fun c => c.toNat < 128 then some line else none

section Writings

variable (classify : List Char → List Char)

/-- What a domain the session is done with was written down as. -/
def Reviewed.writing (r : Reviewed) : Option Writing :=
  match r.pressed with
  | some (.block, t) => some ⟨.blockFile, r.domain, 'S', t, classify r.domain⟩
  | some (.nuke target, t) =>
    some ⟨.blockFile, target, 'S', t,
      "blanket_nuke (".toList ++ classify r.domain ++ ")".toList⟩
  | some (.learn, t) =>
    some ⟨.learnedFile, r.domain, 'G', t,
      "manually_allowed (".toList ++ classify r.domain ++ ")".toList⟩
  | some (.skip, _) | none => none

/-- The root a domain adds: the one that is written to `blocklist.tsv`. -/
def Reviewed.newRoot (r : Reviewed) : Option (List Char) :=
  (r.writing classify).bind fun w =>
    if w.filepath = .blockFile ∧ w.line.isSome then some w.domain else none

/-- `append_to_list` raises at the domain. -/
def Reviewed.raises (r : Reviewed) : Bool := (r.writing classify).any fun w => w.line.isNone

/-- What the queue and the typed lines make of each other: the domains of the session, with the
key pressed for each. A domain under a root is passed over, and the session ends where the input
does, at a `q`, or where a line cannot be written. -/
def dialogue (py : Python) (roots : List (List Char)) :
    List (List Char) → List TypedAnswer → List Reviewed
  | [], _ => []
  | domain :: queue, answers =>
    if ∃ root ∈ roots, Under domain root then ⟨domain, none⟩ :: dialogue py roots queue answers
    else
      match prompt py domain answers with
      | .pressed press time answers =>
        let r : Reviewed := ⟨domain, some (press, time)⟩
        if r.raises classify then [r]
        else r :: dialogue py ((r.newRoot classify).toList ++ roots) queue answers
      | _ => []

/-- The lines a file gets. -/
def writtenLines (filepath : ListPath) (reviewed : List Reviewed) : List (List Char) :=
  (reviewed.filterMap (Reviewed.writing classify)).filterMap fun w =>
    if w.filepath = filepath then w.line else none

/-- The files, followed by the lines the session adds. -/
def continued (files : ListPath → Option CStr) (reviewed : List Reviewed) (filepath : ListPath) :
    CStr :=
  (files filepath).getD [] ++ utf8 (writtenLines classify filepath reviewed).flatten

end Writings

variable {py : Python} {classify : List Char → List Char} {files : ListPath → Option CStr}

theorem writtenLines_append (filepath : ListPath) (reviewed reviewed' : List Reviewed) :
    writtenLines classify filepath (reviewed ++ reviewed') =
      writtenLines classify filepath reviewed ++ writtenLines classify filepath reviewed' := by
  show ((reviewed ++ reviewed').filterMap _).filterMap _ = _
  rw [List.filterMap_append, List.filterMap_append]
  rfl

theorem continued_concat (reviewed : List Reviewed) (r : Reviewed) (filepath : ListPath) :
    continued classify files (reviewed ++ [r]) filepath =
      continued classify files reviewed filepath ++
        utf8 (writtenLines classify filepath [r]).flatten := by
  show (files filepath).getD [] ++ utf8 (writtenLines classify filepath (reviewed ++ [r])).flatten = _
  rw [writtenLines_append, List.flatten_append, utf8_append]
  exact (List.append_assoc _ _ _).symm

theorem writtenLines_some {r : Reviewed} {w : Writing} (h : r.writing classify = some w)
    (filepath : ListPath) :
    writtenLines classify filepath [r] =
      if w.filepath = filepath then w.line.toList else [] := by
  rw [writtenLines]
  rw [List.filterMap_cons_some h, List.filterMap_nil]
  split
  · cases hline : w.line <;> simp [*]
  · simp [*]

theorem writtenLines_none {r : Reviewed} (h : r.writing classify = none) (filepath : ListPath) :
    writtenLines classify filepath [r] = [] := by
  rw [writtenLines]
  rw [List.filterMap_cons_none h]
  rfl

theorem mem_writtenLines {filepath : ListPath} {reviewed : List Reviewed} {line : List Char} :
    line ∈ writtenLines classify filepath reviewed ↔
      ∃ r ∈ reviewed, ∃ w, r.writing classify = some w ∧ w.filepath = filepath ∧
        w.line = some line := by
  rw [writtenLines]
  simp only [List.mem_filterMap]
  constructor
  · rintro ⟨w, ⟨r, hr, hw⟩, hline⟩
    split at hline
    · next hpath => exact ⟨r, hr, w, hw, hpath, hline⟩
    · cases hline
  · rintro ⟨r, hr, w, hw, hpath, hline⟩
    exact ⟨w, ⟨r, hr, hw⟩, (if_pos hpath).trans hline⟩

theorem Writing.getLast?_line {w : Writing} {line : List Char} (h : w.line = some line) :
    line.getLast? = some '\n' := by
  unfold Writing.line at h
  dsimp only at h
  split at h
  · obtain rfl := Option.some.inj h
    unfold listLine
    rw [List.getLast?_append]
    rfl
  · cases h

/-- **What `append_to_list` does** to the files: the line is added if it can be written. -/
theorem appendToList_spec (files : ListPath → Option CStr) (w : Writing) :
    (∀ filepath, ((appendToList files w.filepath w.domain w.flag w.note w.time).1 filepath).getD [] =
      (files filepath).getD [] ++
        utf8 (if w.filepath = filepath then w.line.toList else []).flatten) ∧
      (appendToList files w.filepath w.domain w.flag w.note w.time).2 = w.line.isSome := by
  unfold appendToList Writing.line
  dsimp only
  -- `open(path, "a")` has created the file by the time the encoder raises
  split
  · refine ⟨fun filepath => ?_, rfl⟩
    dsimp only
    rw [Function.update_apply]
    by_cases hpath : filepath = w.filepath
    · rw [if_pos hpath, if_pos hpath.symm, hpath]
      simp
    · rw [if_neg hpath, if_neg (Ne.symm hpath)]
      exact (List.append_nil _).symm
  · refine ⟨fun filepath => ?_, rfl⟩
    dsimp only
    rw [Function.update_apply]
    by_cases hpath : filepath = w.filepath
    · rw [if_pos hpath, if_pos hpath.symm, hpath]
      exact (List.append_nil _).symm
    · rw [if_neg hpath, if_neg (Ne.symm hpath)]
      exact (List.append_nil _).symm

/-- What has been written and passed over so far. -/
structure Session.Kept (classify : List Char → List Char) (files : ListPath → Option CStr)
    (s : Session) : Prop where
  files_eq : ∀ filepath, (s.files filepath).getD [] = continued classify files s.reviewed filepath
  roots : ∀ root ∈ s.nukedRoots, ∃ r ∈ s.reviewed, ∃ w, r.writing classify = some w ∧
    w.filepath = .blockFile ∧ w.domain = root
  passed : ∀ r ∈ s.reviewed, r.pressed = none → ∃ root ∈ s.nukedRoots, Under r.domain root

theorem Session.Kept.start (handled : List (List Char)) :
    Session.Kept classify files ⟨files, handled, [], []⟩ where
  files_eq _ := (List.append_nil _).symm
  roots _ h := absurd h List.not_mem_nil
  passed _ h := absurd h List.not_mem_nil

namespace Session.Kept

variable {s : Session} {r : Reviewed}

/-- A domain nothing is written for. -/
theorem unwritten (h : s.Kept classify files) (hr : r.writing classify = none)
    (hpassed : r.pressed = none → ∃ root ∈ s.nukedRoots, Under r.domain root)
    (handled : List (List Char)) :
    Session.Kept classify files ⟨s.files, handled, s.nukedRoots, s.reviewed ++ [r]⟩ where
  files_eq filepath := by
    rw [continued_concat, writtenLines_none hr, ← h.files_eq]
    exact (List.append_nil _).symm
  roots root hroot := by
    obtain ⟨r', hr', hw⟩ := h.roots root hroot
    exact ⟨r', List.mem_append_left _ hr', hw⟩
  passed r' hr' hnone := by
    rcases List.mem_append.mp hr' with hr' | hr'
    · exact h.passed r' hr' hnone
    · obtain rfl := List.mem_singleton.mp hr'
      exact hpassed hnone

/-- A domain `append_to_list` is called for, whether it raises or not, and a root with it if the
line goes to the blocklist. -/
theorem append (h : s.Kept classify files) {w : Writing} (hw : r.writing classify = some w)
    {fs : ListPath → Option CStr} {ok : Bool}
    (hcall : appendToList s.files w.filepath w.domain w.flag w.note w.time = (fs, ok))
    {roots : List (List Char)} (hold : ∀ root ∈ s.nukedRoots, root ∈ roots)
    (hnew : ∀ root ∈ roots, root ∈ s.nukedRoots ∨ w.filepath = .blockFile ∧ w.domain = root)
    (handled : List (List Char)) :
    Session.Kept classify files ⟨fs, handled, roots, s.reviewed ++ [r]⟩ where
  files_eq filepath := by
    have hfile := (appendToList_spec s.files w).1 filepath
    rw [hcall] at hfile
    rw [continued_concat, writtenLines_some hw, ← h.files_eq]
    exact hfile
  roots root hroot := by
    rcases hnew root hroot with hroot | ⟨hpath, hdomain⟩
    · obtain ⟨r', hr', hw'⟩ := h.roots root hroot
      exact ⟨r', List.mem_append_left _ hr', hw'⟩
    · exact ⟨r, List.mem_append_right _ (List.mem_singleton_self r), w, hw, hpath, hdomain⟩
  passed r' hr' hnone := by
    rcases List.mem_append.mp hr' with hr' | hr'
    · obtain ⟨root, hroot, hunder⟩ := h.passed r' hr' hnone
      exact ⟨root, hold root hroot, hunder⟩
    · obtain rfl := List.mem_singleton.mp hr'
      rw [Reviewed.writing] at hw
      rw [hnone] at hw
      cases hw

theorem takeUp (h : s.Kept classify files) (domain : List Char) (t : Int) (press : Press) :
    (takeUp classify s domain t press).1.Kept classify files := by
  -- a root is added only where a line was appended to the blocklist
  have hroot : ∀ target, ∀ root ∈ target :: s.nukedRoots,
      root ∈ s.nukedRoots ∨ ListPath.blockFile = .blockFile ∧ target = root :=
    fun target root hroot =>
      (List.mem_cons.mp hroot).symm.imp_right fun heq => ⟨rfl, heq.symm⟩
  unfold Nyet.takeUp
  cases press with
  | block =>
    have hw : Reviewed.writing classify ⟨domain, some (.block, t)⟩ =
      some ⟨.blockFile, domain, 'S', t, classify domain⟩ := rfl
    dsimp only
    split
    · next hcall => exact h.append hw hcall (fun _ => id) (fun _ => Or.inl) _
    · next hcall => exact h.append hw hcall (fun _ => List.mem_cons_of_mem _) (hroot domain) _
  | nuke target =>
    have hw : Reviewed.writing classify ⟨domain, some (.nuke target, t)⟩ =
      some ⟨.blockFile, target, 'S', t,
        "blanket_nuke (".toList ++ classify domain ++ ")".toList⟩ := rfl
    dsimp only
    split
    · next hcall => exact h.append hw hcall (fun _ => id) (fun _ => Or.inl) _
    · next hcall => exact h.append hw hcall (fun _ => List.mem_cons_of_mem _) (hroot target) _
  | learn =>
    have hw : Reviewed.writing classify ⟨domain, some (.learn, t)⟩ =
      some ⟨.learnedFile, domain, 'G', t,
        "manually_allowed (".toList ++ classify domain ++ ")".toList⟩ := rfl
    dsimp only
    split
    · next hcall => exact h.append hw hcall (fun _ => id) (fun _ => Or.inl) _
    · next hcall => exact h.append hw hcall (fun _ => id) (fun _ => Or.inl) _
  | skip => exact h.unwritten rfl (fun hnone => by cases hnone) _

/-- **The loop over the queue**, whatever is typed. -/
theorem reviewLoop (h : s.Kept classify files) (queue : List (List Char))
    (answers : List TypedAnswer) :
    (reviewLoop py classify s queue answers).1.Kept classify files := by
  induction queue generalizing s answers with
  | nil => exact h
  | cons domain queue ih =>
    rw [Nyet.reviewLoop]
    split
    · next hroot => exact ih (h.unwritten rfl (fun _ => hroot) _) _
    · cases hprompt : prompt py domain answers with
      | ended => exact h
      | quit => exact h
      | pressed press time rest =>
        have hstep := h.takeUp domain time press
        dsimp only
        split
        · next heq =>
          rw [heq] at hstep
          exact hstep
        · next heq =>
          rw [heq] at hstep
          exact ih hstep _

theorem of_reviewLoop (h : s.Kept classify files) {queue : List (List Char)}
    {answers : List TypedAnswer} {s' : Session} {ok : Bool}
    (heq : Nyet.reviewLoop py classify s queue answers = (s', ok)) : s'.Kept classify files := by
  have hs : (Nyet.reviewLoop py classify s queue answers).1 = s' := congrArg Prod.fst heq
  exact hs ▸ h.reviewLoop queue answers

end Session.Kept

/-! ## Who is asked what -/

theorem takeUp_spec (s : Session) (domain : List Char) (t : Int) (press : Press) :
    (takeUp classify s domain t press).2 = !(Reviewed.mk domain (some (press, t))).raises classify ∧
      (takeUp classify s domain t press).1.reviewed =
        s.reviewed ++ [⟨domain, some (press, t)⟩] ∧
      (takeUp classify s domain t press).1.nukedRoots =
        ((Reviewed.mk domain (some (press, t))).newRoot classify).toList ++ s.nukedRoots := by
  have hraises : ∀ {r : Reviewed} {w : Writing}, r.writing classify = some w →
      r.raises classify = w.line.isNone := by
    intro r w hw
    rw [Reviewed.raises]
    rw [hw]
    rfl
  have hroot : ∀ {r : Reviewed} {w : Writing}, r.writing classify = some w →
      r.newRoot classify = if w.filepath = .blockFile ∧ w.line.isSome then some w.domain else none := by
    intro r w hw
    rw [Reviewed.newRoot]
    rw [hw]
    rfl
  -- a key that calls `append_to_list`, by what it makes of the roots
  have hcall : ∀ {r : Reviewed} {w : Writing}, r.writing classify = some w →
      ∀ {fs : ListPath → Option CStr} {ok : Bool},
        appendToList s.files w.filepath w.domain w.flag w.note w.time = (fs, ok) →
          ok = !r.raises classify ∧
            (r.newRoot classify).toList = if w.filepath = .blockFile ∧ ok then [w.domain] else [] := by
    intro r w hw fs ok hcall
    have hok : ok = w.line.isSome := by
      have hspec := (appendToList_spec s.files w).2
      rw [hcall] at hspec
      exact hspec
    rw [hraises hw, hroot hw, hok]
    constructor
    · cases w.line <;> rfl
    · split <;> rfl
  unfold takeUp
  cases press with
  | block =>
    have hw : Reviewed.writing classify ⟨domain, some (.block, t)⟩ =
      some ⟨.blockFile, domain, 'S', t, classify domain⟩ := rfl
    dsimp only
    split <;>
      next h =>
        obtain ⟨hok, hnew⟩ := hcall hw h
        rw [hnew]
        exact ⟨hok, rfl, rfl⟩
  | nuke target =>
    have hw : Reviewed.writing classify ⟨domain, some (.nuke target, t)⟩ =
      some ⟨.blockFile, target, 'S', t,
        "blanket_nuke (".toList ++ classify domain ++ ")".toList⟩ := rfl
    dsimp only
    split <;>
      next h =>
        obtain ⟨hok, hnew⟩ := hcall hw h
        rw [hnew]
        exact ⟨hok, rfl, rfl⟩
  | learn =>
    have hw : Reviewed.writing classify ⟨domain, some (.learn, t)⟩ =
      some ⟨.learnedFile, domain, 'G', t,
        "manually_allowed (".toList ++ classify domain ++ ")".toList⟩ := rfl
    dsimp only
    split <;>
      next h =>
        obtain ⟨hok, hnew⟩ := hcall hw h
        rw [hnew]
        exact ⟨hok, rfl, rfl⟩
  | skip => exact ⟨rfl, rfl, rfl⟩

/-- **The loop goes by the dialogue**, and its roots are those of the dialogue. -/
theorem reviewLoop_dialogue (s : Session) (queue : List (List Char)) (answers : List TypedAnswer) :
    (reviewLoop py classify s queue answers).1.reviewed =
        s.reviewed ++ dialogue classify py s.nukedRoots queue answers ∧
      ∀ root, root ∈ (reviewLoop py classify s queue answers).1.nukedRoots ↔
        root ∈ s.nukedRoots ∨ root ∈
          (dialogue classify py s.nukedRoots queue answers).filterMap (Reviewed.newRoot classify) := by
  induction queue generalizing s answers with
  | nil => simp [reviewLoop, dialogue]
  | cons domain queue ih =>
    rw [reviewLoop, dialogue]
    split
    · -- passed over: at or below a root already, so no root is added
      obtain ⟨hreviewed, hroots⟩ := ih (passOver s domain) answers
      constructor
      · rw [hreviewed]
        exact List.append_assoc _ _ _
      · intro root
        rw [hroots, List.filterMap_cons_none rfl]
        exact Iff.rfl
    · cases prompt py domain answers with
      | ended => simp
      | quit => simp
      | pressed press time rest =>
        obtain ⟨hok, hreviewed, hroots⟩ := @takeUp_spec classify s domain time press
        dsimp only
        generalize takeUp classify s domain time press = outcome at hok hreviewed hroots ⊢
        obtain ⟨s', ok⟩ := outcome
        dsimp only at hok hreviewed hroots
        generalize Reviewed.mk domain (some (press, time)) = r at hok hreviewed hroots ⊢
        subst hok
        cases hraises : r.raises classify with
        | true =>
          refine ⟨hreviewed, fun root => ?_⟩
          rw [show (!true) = false from rfl, if_pos rfl, hroots, List.mem_append, or_comm]
          cases hnew : r.newRoot classify <;> simp [hnew]
        | false =>
          obtain ⟨hreviewed', hroots'⟩ := ih s' rest
          rw [if_neg Bool.false_ne_true, ← hroots]
          constructor
          · show (reviewLoop py classify s' queue rest).1.reviewed = _
            rw [hreviewed', hreviewed, List.append_assoc]
            rfl
          · intro root
            show root ∈ (reviewLoop py classify s' queue rest).1.nukedRoots ↔ _
            have hcons : ∀ rs : List Reviewed, (r :: rs).filterMap (Reviewed.newRoot classify) =
                (r.newRoot classify).toList ++ rs.filterMap (Reviewed.newRoot classify) := by
              intro rs
              cases hnew : r.newRoot classify <;> simp [hnew]
            rw [hroots', hroots, hcons, List.mem_append, List.mem_append]
            exact or_assoc.trans or_left_comm

/-! ## The session -/

/-- The session by its queue. -/
theorem interactiveReview_eq (files : ListPath → Option CStr) (review : Option CStr)
    (answers : List TypedAnswer) :
    interactiveReview py classify files review answers =
      if review.getD [] = [] then ⟨files, review, [], []⟩
      else
        let processed := loadProcessedDomains py files
        let lines := fileLines py (review.getD [])
        if openQueue py processed lines = [] then ⟨files, some [], [], []⟩
        else
          match reviewLoop py classify ⟨files, protectedHits py processed lines, [], []⟩
            (sortedQueue py processed lines) answers with
          | (t, false) => ⟨t.files, review, t.nukedRoots, t.reviewed⟩
          | (t, true) =>
            ⟨t.files, some (utf8 (keptLines py processed t.handledDomains lines).flatten),
              t.nukedRoots, t.reviewed⟩ := rfl

/-- **Who is asked what** is a matter of the queue and of what is typed. -/
theorem interactiveReview_reviewed (files : ListPath → Option CStr) (review : Option CStr)
    (answers : List TypedAnswer) :
    (interactiveReview py classify files review answers).reviewed =
        dialogue classify py [] (reviewQueue py files review) answers ∧
      ∀ root, root ∈ (interactiveReview py classify files review answers).nukedRoots ↔
        root ∈ (dialogue classify py [] (reviewQueue py files review) answers).filterMap
          (Reviewed.newRoot classify) := by
  rw [interactiveReview_eq, reviewQueue]
  by_cases hempty : review.getD [] = []
  · rw [if_pos hempty, if_pos hempty]
    exact ⟨rfl, fun _ => Iff.rfl⟩
  rw [if_neg hempty, if_neg hempty]
  dsimp only
  -- nothing to ask about, and the dialogue of no queue is no dialogue
  by_cases hqueue : openQueue py (loadProcessedDomains py files) (fileLines py (review.getD [])) = []
  · have hsorted : sortedQueue py (loadProcessedDomains py files)
        (fileLines py (review.getD [])) = [] := by
      rw [sortedQueue]
      rw [hqueue]
      exact List.mergeSort_nil
    rw [if_pos hqueue, hsorted]
    exact ⟨rfl, fun _ => Iff.rfl⟩
  · rw [if_neg hqueue]
    obtain ⟨hreviewed, hroots⟩ := @reviewLoop_dialogue py classify
      ⟨files, protectedHits py (loadProcessedDomains py files) (fileLines py (review.getD [])), [], []⟩
      (sortedQueue py (loadProcessedDomains py files) (fileLines py (review.getD []))) answers
    generalize reviewLoop py classify _ _ answers = outcome at hreviewed hroots ⊢
    obtain ⟨t, ok⟩ := outcome
    simp only [List.not_mem_nil, false_or] at hroots
    cases ok with
    | false => exact ⟨hreviewed, hroots⟩
    | true => exact ⟨hreviewed, hroots⟩

/-- **What the session leaves**: files continued by its lines, every root with a line, and
every domain passed over under a root. -/
theorem interactiveReview_kept (review : Option CStr) (answers : List TypedAnswer) :
    Session.Kept classify files
      ⟨(interactiveReview py classify files review answers).files, [],
        (interactiveReview py classify files review answers).nukedRoots,
        (interactiveReview py classify files review answers).reviewed⟩ := by
  rw [interactiveReview]
  dsimp only
  split
  · exact .start []
  · split
    · exact .start []
    · split
      · next s heq =>
        have hs := (Session.Kept.start _).of_reviewLoop heq
        exact ⟨hs.files_eq, hs.roots, hs.passed⟩
      · next s heq =>
        have hs := (Session.Kept.start _).of_reviewLoop heq
        exact ⟨hs.files_eq, hs.roots, hs.passed⟩

end Nyet
