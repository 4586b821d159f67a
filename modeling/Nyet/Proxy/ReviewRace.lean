import Nyet.Blocklist.Review
import Nyet.Proxy.LogLine

/-!
# A review session while nyet is running

`flag_for_review` appends a line to `review.tsv`, in one go; `interactive_review` reads the file
when it starts and writes it anew when it ends. What is appended in between is not in what it
writes. `review_lines_kept_iff` says when nothing is lost: if every such line is, byte for byte,
the end of one that the session read and leaves in.
-/

namespace Nyet

/-- A call of `flag_for_review`: `crosses` says whether the score is at least `REVIEW_THRESHOLD`,
and `openOk` whether the file opens. The reason is what `compute_heuristic_score` prints,
names and numbers on one line. -/
structure Flagging where
  domain : CStr
  reason : CStr
  now : Int
  crosses : Bool
  openOk : Bool
  oneLine : newline ∉ reason

/-- `"REVIEW\t%s\theuristic\t%lld\t%lld\t1\t%s\n"` -/
def Flagging.line (f : Flagging) : CStr :=
  rowText [cstr "REVIEW", sanitizeLogField f.domain maxDomainLen, cstr "heuristic",
    decimalInt f.now, decimalInt f.now, cstr "1", f.reason]

/-- A line is written. -/
def Flagging.appends (f : Flagging) : Bool := f.crosses && f.openOk

/-- What `flag_for_review` does to `review.tsv`. -/
def flagForReviewFile (review : Option CStr) (f : Flagging) : Option CStr :=
  if f.appends then some (review.getD [] ++ f.line) else review

/-- Where a session is. -/
inductive SessionAt where
  | waiting
  /-- the file is read, the queue is gone through -/
  | asking (lines processed protectedHits queue : List (List Char))
  /-- the file is read, there is no queue -/
  | clearing
  /-- the queue is done with -/
  | rewriting (lines processed handledDomains : List (List Char))
  | over
  deriving DecidableEq

/-- The files, a session, and the lines nyet has appended since it read `review.tsv`. -/
structure ReviewFile where
  files : ListPath → Option CStr
  review : Option CStr
  session : SessionAt
  since : List CStr

/-- One turn: nyet flags a domain, the session reads the file, goes through its queue with what
is typed, or writes the file anew. -/
inductive ReviewTurn where
  | flag (f : Flagging)
  | read
  | ask (answers : List TypedAnswer)
  | rewrite

section

variable (py : Python) (classify : List Char → List Char)

/-- The session up to its queue. -/
def ReviewFile.read (s : ReviewFile) : ReviewFile :=
  if s.review.getD [] = [] then { s with session := .over }
  else
    let processed := loadProcessedDomains py s.files
    let lines := fileLines py (s.review.getD [])
    if openQueue py processed lines = [] then { s with session := .clearing }
    else
      { s with
        session := .asking lines processed (protectedHits py processed lines)
          (sortedQueue py processed lines) }

/-- One turn. -/
def ReviewFile.step (s : ReviewFile) : ReviewTurn → ReviewFile
  | .flag f =>
    { s with
      review := flagForReviewFile s.review f
      since := if f.appends && s.session ≠ .waiting then s.since ++ [f.line] else s.since }
  | .read =>
    match s.session with
    | .waiting => s.read py
    | _ => s
  | .ask answers =>
    match s.session with
    | .asking lines processed hits queue =>
      match reviewLoop py classify ⟨s.files, hits, [], []⟩ queue answers with
      | (t, false) => { s with files := t.files, session := .over }
      | (t, true) =>
        { s with files := t.files, session := .rewriting lines processed t.handledDomains }
    | _ => s
  | .rewrite =>
    match s.session with
    | .clearing => { s with review := some [], session := .over }
    | .rewriting lines processed handled =>
      { s with
        review := some (utf8 (keptLines py processed handled lines).flatten)
        session := .over }
    | _ => s

end

/-- Nobody reviews yet. -/
def ReviewFile.start (files : ListPath → Option CStr) (review : Option CStr) : ReviewFile :=
  ⟨files, review, .waiting, []⟩

/-- **No line is lost**: when the session has ended, what nyet has appended since it read the
file is in the file. -/
def LinesKept (s : ReviewFile) : Prop :=
  s.session = .over → ∀ line ∈ s.since, line <:+: s.review.getD []

/-- The condition: what nyet has appended when the file is written anew is the end of a line that
was read, and whose domain is neither handled nor processed. -/
def RewriteSpares (py : Python) (s : ReviewFile) : ReviewTurn → Prop
  | .rewrite =>
    match s.session with
    | .clearing => s.since = []
    | .rewriting lines processed handled =>
      ∀ line ∈ s.since, ∃ l ∈ keptLines py processed handled lines, line <:+ utf8 l
    | _ => True
  | _ => True

variable {py : Python} {classify : List Char → List Char}

theorem read_eq (files : ListPath → Option CStr) (review : Option CStr) (at_ : SessionAt)
    (since : List CStr) :
    ReviewFile.read py ⟨files, review, at_, since⟩ =
      if review.getD [] = [] then ⟨files, review, .over, since⟩
      else
        if openQueue py (loadProcessedDomains py files) (fileLines py (review.getD [])) = [] then
          ⟨files, review, .clearing, since⟩
        else
          ⟨files, review, .asking (fileLines py (review.getD [])) (loadProcessedDomains py files)
            (protectedHits py (loadProcessedDomains py files) (fileLines py (review.getD [])))
            (sortedQueue py (loadProcessedDomains py files) (fileLines py (review.getD []))),
            since⟩ := rfl

theorem step_ask (files : ListPath → Option CStr) (review : Option CStr)
    (lines processed hits queue : List (List Char)) (since : List CStr)
    (answers : List TypedAnswer) :
    ReviewFile.step py classify ⟨files, review, .asking lines processed hits queue, since⟩
        (.ask answers) =
      match reviewLoop py classify ⟨files, hits, [], []⟩ queue answers with
      | (t, false) => ⟨t.files, review, .over, since⟩
      | (t, true) => ⟨t.files, review, .rewriting lines processed t.handledDomains, since⟩ := rfl

/-- **Where nyet flags nothing in between**, the session is the one of the other results. -/
theorem session_alone (files : ListPath → Option CStr) (review : Option CStr)
    (answers : List TypedAnswer) :
    let s := Lib.run (ReviewFile.step py classify) (.start files review)
      [.read, .ask answers, .rewrite]
    s.session = .over ∧ s.files = (interactiveReview py classify files review answers).files ∧
      s.review = (interactiveReview py classify files review answers).review := by
  intro s
  have hread : s = Lib.run (ReviewFile.step py classify)
    (ReviewFile.read py ⟨files, review, .waiting, []⟩) [.ask answers, .rewrite] := rfl
  rw [hread, interactiveReview_eq, read_eq]
  by_cases hempty : review.getD [] = []
  · rw [if_pos hempty, if_pos hempty]
    exact ⟨rfl, rfl, rfl⟩
  rw [if_neg hempty, if_neg hempty]
  by_cases hqueue : openQueue py (loadProcessedDomains py files)
      (fileLines py (review.getD [])) = []
  · rw [if_pos hqueue, if_pos hqueue]
    exact ⟨rfl, rfl, rfl⟩
  rw [if_neg hqueue, if_neg hqueue, Lib.run_cons, step_ask]
  generalize reviewLoop py classify _ _ answers = outcome
  obtain ⟨t, ok⟩ := outcome
  cases ok with
  | false => exact ⟨rfl, rfl, rfl⟩
  | true => exact ⟨rfl, rfl, rfl⟩

/-! ## Lines of a file -/

/-- A text that ends in a newline and has no other. -/
def OneLine (line : CStr) : Prop := ∃ text, newline ∉ text ∧ line = text ++ [newline]

/-- A line that is in a text is in one of two parts, if the first one ends at a newline. -/
theorem OneLine.infix_append {line front back : CStr} (h : OneLine line)
    (hfront : newline ∉ front.dropLast) (hended : back = [] ∨ front.getLast? = some newline)
    (hin : line <:+: front ++ back) : line <:+ front ∨ line <:+: back := by
  obtain ⟨text, htext, rfl⟩ := h
  obtain ⟨before, after, hwhole⟩ := hin
  rcases List.append_eq_append_iff.mp hwhole with ⟨rest, rfl, rfl⟩ | ⟨rest, hstart, rfl⟩
  · -- it stands in the first part, where there is no newline but the last
    cases rest with
    | nil =>
      rw [List.append_nil]
      exact Or.inl (List.suffix_append _ _)
    | cons c rest =>
      rw [List.dropLast_append_of_ne_nil (List.cons_ne_nil c rest)] at hfront
      exact absurd (by simp) hfront
  · rcases List.append_eq_append_iff.mp hstart with ⟨start, rfl, hline⟩ | ⟨gap, -, rfl⟩
    · -- it starts in the first part and ends in the second
      cases rest with
      | nil =>
        rw [List.append_nil] at hline
        rw [← hline]
        exact Or.inl (List.suffix_append _ _)
      | cons c rest =>
        cases start with
        | nil =>
          rw [List.nil_append] at hline
          rw [← hline]
          exact Or.inr (List.prefix_append _ _).isInfix
        | cons d start =>
          have hlast : (before ++ d :: start).getLast? = some newline :=
            hended.resolve_left (by simp)
          rw [List.getLast?_append_of_ne_nil _ (List.cons_ne_nil d start)] at hlast
          have hdrop := congrArg List.dropLast hline
          rw [List.dropLast_concat, List.dropLast_append_of_ne_nil (List.cons_ne_nil c rest)]
            at hdrop
          rw [hdrop] at htext
          exact absurd (List.mem_append_left _ (List.mem_of_getLast? hlast)) htext
    · rw [List.append_assoc]
      refine Or.inr ?_
      exact (List.prefix_append _ after).isInfix.trans (List.suffix_append gap _).isInfix

/-- **A line in a file that is written line by line** is the end of one of them. -/
theorem infix_flatten_iff {lines : List (List Char)}
    (hended : lines.Pairwise fun l _ => l.getLast? = some '\n')
    (honce : ∀ l ∈ lines, '\n' ∉ l.dropLast) {line : CStr} (h : OneLine line) :
    line <:+: utf8 lines.flatten ↔ ∃ l ∈ lines, line <:+ utf8 l := by
  constructor
  · intro hin
    induction lines with
    | nil =>
      obtain ⟨text, -, rfl⟩ := h
      have hnil := List.infix_nil.mp hin
      exact absurd hnil (List.append_ne_nil_of_right_ne_nil _ (List.cons_ne_nil _ _))
    | cons l lines ih =>
      obtain ⟨hl, hrest⟩ := List.pairwise_cons.mp hended
      rw [List.flatten_cons, utf8_append] at hin
      -- a line that others follow is ended
      have hlast : utf8 lines.flatten = [] ∨ (utf8 l).getLast? = some newline := by
        cases lines with
        | nil => exact Or.inl rfl
        | cons other lines =>
          have hne : utf8 l ≠ [] := utf8_ne_nil (by
            rintro rfl
            exact absurd (hl other List.mem_cons_self) (by decide))
          exact Or.inr ((endsInNewline_utf8 (hl other List.mem_cons_self)).resolve_left hne)
      have hfront := newline_notMem_dropLast_utf8 (honce l List.mem_cons_self)
      rcases h.infix_append hfront hlast hin with hsuffix | hin
      · exact ⟨l, List.mem_cons_self, hsuffix⟩
      · have hothers : ∀ l' ∈ lines, '\n' ∉ l'.dropLast := fun l' hl' =>
          honce l' (List.mem_cons_of_mem _ hl')
        obtain ⟨l', hl', hsuffix⟩ := ih hrest hothers hin
        exact ⟨l', List.mem_cons_of_mem _ hl', hsuffix⟩
  · rintro ⟨l, hl, hsuffix⟩
    obtain ⟨front, back, rfl⟩ := List.append_of_mem hl
    rw [List.flatten_append, List.flatten_cons, utf8_append, utf8_append]
    refine (hsuffix.isInfix.trans ?_)
    exact ((List.prefix_append _ _).isInfix).trans (List.suffix_append _ _).isInfix

/-- What is appended is one line. -/
theorem Flagging.oneLine_line (f : Flagging) : OneLine f.line := by
  refine ⟨_, fun hmem => ?_, rfl⟩
  rcases mem_tabbed hmem with htab | ⟨field, hfield, hc⟩
  · exact absurd htab (by decide)
  · simp only [List.mem_cons, List.not_mem_nil, or_false] at hfield
    rcases hfield with rfl | rfl | rfl | rfl | rfl | rfl | rfl
    · exact absurd hc (by decide)
    · exact absurd (isPrint_sanitizeLogField _ hc) (by decide)
    · exact absurd hc (by decide)
    · exact absurd (isPrint_decimalInt hc) (by decide)
    · exact absurd (isPrint_decimalInt hc) (by decide)
    · exact absurd hc (by decide)
    · exact f.oneLine hc

/-! ## One turn -/

/-- The lines a session has in hand. -/
def SessionAt.lines : SessionAt → List (List Char)
  | .asking lines _ _ _ => lines
  | .rewriting lines _ _ => lines
  | _ => []

/-- What is appended is in the file until the session writes it anew, and the session has lines of
a file in hand. -/
structure ReviewFile.Orderly (s : ReviewFile) : Prop where
  oneLine : ∀ line ∈ s.since, OneLine line
  waits : s.session = .waiting → s.since = []
  kept : s.session ≠ .over → ∀ line ∈ s.since, line <:+: s.review.getD []
  read : ∃ text, s.session.lines = pyLines text

theorem ReviewFile.Orderly.start (files : ListPath → Option CStr) (review : Option CStr) :
    (ReviewFile.start files review).Orderly where
  oneLine _ h := absurd h List.not_mem_nil
  waits _ := rfl
  kept _ _ h := absurd h List.not_mem_nil
  read := ⟨[], rfl⟩

variable {s : ReviewFile}

/-- What is in the file stays when a line is appended, and that line is there. -/
theorem kept_flagForReviewFile {since : List CStr} {review : Option CStr}
    (h : ∀ line ∈ since, line <:+: review.getD []) {f : Flagging} (hf : f.appends = true) :
    ∀ line ∈ since ++ [f.line], line <:+: (flagForReviewFile review f).getD [] := by
  intro line hline
  rw [flagForReviewFile, if_pos hf, Option.getD_some]
  rcases List.mem_append.mp hline with hline | hline
  · exact (h line hline).trans (List.prefix_append _ _).isInfix
  · rw [List.mem_singleton.mp hline]
    exact (List.suffix_append _ _).isInfix

theorem kept_flag (h : ∀ line ∈ s.since, line <:+: s.review.getD []) (f : Flagging) :
    ∀ line ∈ (s.step py classify (.flag f)).since,
      line <:+: (s.step py classify (.flag f)).review.getD [] := by
  show ∀ line ∈ (if f.appends && s.session ≠ .waiting then s.since ++ [f.line] else s.since),
    line <:+: (flagForReviewFile s.review f).getD []
  cases hf : f.appends with
  | true =>
    intro line hline
    refine kept_flagForReviewFile h hf line ?_
    split at hline
    · exact hline
    · exact List.mem_append_left _ hline
  | false =>
    rw [flagForReviewFile, hf, if_neg Bool.false_ne_true]
    exact h

theorem ReviewFile.Orderly.flag (h : s.Orderly) (f : Flagging) :
    (s.step py classify (.flag f)).Orderly where
  oneLine := by
    show ∀ line ∈ (if f.appends && s.session ≠ .waiting then s.since ++ [f.line] else s.since), _
    intro line hline
    split at hline
    · rcases List.mem_append.mp hline with hline | hline
      · exact h.oneLine line hline
      · rw [List.mem_singleton.mp hline]
        exact f.oneLine_line
    · exact h.oneLine line hline
  waits := by
    intro hwaiting
    have hwaiting : s.session = .waiting := hwaiting
    show (if f.appends && s.session ≠ .waiting then s.since ++ [f.line] else s.since) = []
    rw [hwaiting, h.waits hwaiting]
    simp
  kept hrunning := kept_flag (h.kept hrunning) f
  read := h.read

/-- A session that moves on without writing the file. -/
theorem ReviewFile.Orderly.of_unwritten (h : s.Orderly) {s' : ReviewFile}
    (hreview : s'.review = s.review) (hsince : s'.since = s.since) (hmoved : s'.session ≠ .waiting)
    (hrunning : s.session ≠ .over) (hread : ∃ text, s'.session.lines = pyLines text) :
    s'.Orderly where
  oneLine := hsince ▸ h.oneLine
  waits hwaiting := absurd hwaiting hmoved
  kept _ := by
    rw [hreview, hsince]
    exact h.kept hrunning
  read := hread

theorem ReviewFile.Orderly.step (h : s.Orderly) (t : ReviewTurn) :
    (s.step py classify t).Orderly := by
  -- a turn that is not the session's next does nothing
  obtain ⟨files, review, at_, since⟩ := s
  cases t with
  | flag f => exact h.flag f
  | read =>
    cases at_ with
    | waiting =>
      show (ReviewFile.read py ⟨files, review, .waiting, since⟩).Orderly
      rw [read_eq]
      split
      · exact h.of_unwritten rfl rfl nofun nofun ⟨[], rfl⟩
      · split
        · exact h.of_unwritten rfl rfl nofun nofun ⟨[], rfl⟩
        · exact h.of_unwritten rfl rfl nofun nofun ⟨_, rfl⟩
    | _ => exact h
  | ask answers =>
    cases at_ with
    | asking lines processed hits queue =>
      rw [step_ask]
      split
      · exact h.of_unwritten rfl rfl nofun nofun ⟨[], rfl⟩
      · exact h.of_unwritten rfl rfl nofun nofun h.read
    | _ => exact h
  | rewrite =>
    cases at_ with
    | clearing =>
      exact ⟨h.oneLine, nofun, fun hover => absurd rfl hover, ⟨[], rfl⟩⟩
    | rewriting lines processed handled =>
      exact ⟨h.oneLine, nofun, fun hover => absurd rfl hover, ⟨[], rfl⟩⟩
    | _ => exact h

/-- **The file is written anew**: what is kept then is what the condition says. -/
theorem linesKept_rewrite (h : s.Orderly) (hkept : LinesKept s) :
    LinesKept (s.step py classify .rewrite) ↔ RewriteSpares py s .rewrite := by
  obtain ⟨files, review, at_, since⟩ := s
  cases at_ with
  | clearing =>
    show (SessionAt.over = .over → ∀ line ∈ since, line <:+: []) ↔ since = []
    constructor
    · intro hnone
      refine List.eq_nil_iff_forall_not_mem.mpr fun line hline => ?_
      obtain ⟨text, -, rfl⟩ := h.oneLine line hline
      have hnil := List.infix_nil.mp (hnone rfl _ hline)
      exact absurd hnil (List.append_ne_nil_of_right_ne_nil _ (List.cons_ne_nil _ _))
    · rintro rfl - line hline
      cases hline
  | rewriting lines processed handled =>
    show (SessionAt.over = .over → ∀ line ∈ since,
      line <:+: utf8 (keptLines py processed handled lines).flatten) ↔
        ∀ line ∈ since, ∃ l ∈ keptLines py processed handled lines, line <:+ utf8 l
    obtain ⟨text, htext⟩ := h.read
    have htext : lines = pyLines text := htext
    have hsub : (keptLines py processed handled lines).Sublist (pyLines text) :=
      htext ▸ List.filter_sublist
    -- what is kept is a part of the lines that were read, each with its end still
    have hended := (pyLines_ended text).sublist hsub
    have honce : ∀ l ∈ keptLines py processed handled lines, '\n' ∉ l.dropLast := fun l hl =>
      newline_not_mem_dropLast text l (hsub.subset hl)
    rw [forall_prop_of_true rfl]
    exact forall₂_congr fun line hline => infix_flatten_iff hended honce (h.oneLine line hline)
  | _ => exact iff_of_true hkept trivial

/-- Only the last turn of a session writes the file. -/
theorem step_read_unwritten (s : ReviewFile) :
    (s.step py classify .read).review = s.review ∧ (s.step py classify .read).since = s.since := by
  obtain ⟨files, review, at_, since⟩ := s
  cases at_ with
  | waiting =>
    show (ReviewFile.read py ⟨files, review, .waiting, since⟩).review = review ∧
      (ReviewFile.read py ⟨files, review, .waiting, since⟩).since = since
    rw [read_eq]
    split
    · exact ⟨rfl, rfl⟩
    · split
      · exact ⟨rfl, rfl⟩
      · exact ⟨rfl, rfl⟩
  | _ => exact ⟨rfl, rfl⟩

theorem step_ask_unwritten (s : ReviewFile) (answers : List TypedAnswer) :
    (s.step py classify (.ask answers)).review = s.review ∧
      (s.step py classify (.ask answers)).since = s.since := by
  obtain ⟨files, review, at_, since⟩ := s
  cases at_ with
  | asking lines processed hits queue =>
    rw [step_ask]
    split
    · exact ⟨rfl, rfl⟩
    · exact ⟨rfl, rfl⟩
  | _ => exact ⟨rfl, rfl⟩

theorem linesKept_of_unwritten (h : s.Orderly) (hkept : LinesKept s) {s' : ReviewFile}
    (heq : s'.review = s.review ∧ s'.since = s.since) : LinesKept s' := by
  intro _
  rw [heq.1, heq.2]
  by_cases hover : s.session = .over
  · exact hkept hover
  · exact h.kept hover

/-- **One turn loses no line exactly if it meets the condition.** -/
theorem linesKept_step (h : s.Orderly) (hkept : LinesKept s) (t : ReviewTurn) :
    LinesKept (s.step py classify t) ↔ RewriteSpares py s t := by
  cases t with
  | flag f => exact iff_of_true (fun hover => kept_flag (hkept hover) f) trivial
  | read => exact iff_of_true (linesKept_of_unwritten h hkept (step_read_unwritten s)) trivial
  | ask answers =>
    exact iff_of_true (linesKept_of_unwritten h hkept (step_ask_unwritten s answers)) trivial
  | rewrite => exact linesKept_rewrite h hkept

/-- **Whether a review session loses lines of nyet's.** Whatever is in the files, whatever is typed
and whenever nyet flags a domain, every line it appends after the session has read `review.tsv`
is there when the session has ended exactly if each one that was appended before the file was
written anew is the end of a line that was read and left in. -/
theorem review_lines_kept_iff (py : Python) (classify : List Char → List Char)
    (files : ListPath → Option CStr) (review : Option CStr) (turns : List ReviewTurn) :
    Lib.EveryState (ReviewFile.step py classify) LinesKept (.start files review) turns ↔
      Lib.EveryStep (ReviewFile.step py classify) (RewriteSpares py) (.start files review) turns :=
  Lib.everyState_iff_everyStep (G := fun _ _ => True) (fun _ t h _ => h.step t)
    (fun _ t h _ hkept => linesKept_step h hkept t) (.start files review) nofun
    (Lib.everyStep_of_mem (fun _ _ _ => trivial) _)

/-- A domain that is flagged while another one is reviewed. -/
def flaggedMeanwhile : Flagging where
  domain := cstr "new.example"
  reason := cstr "final=0.90"
  now := 2
  crosses := true
  openOk := true
  oneLine := by decide

/-- One domain is in the queue, nyet flags another one, and the first is skipped: the file is
empty then. -/
theorem flagged_meanwhile_lost :
    ¬ Lib.EveryState (ReviewFile.step .ascii fun _ => []) LinesKept
      (.start (fun _ => none) (some (cstr "REVIEW\told.example\theuristic\t1\t1\t1\tfinal=0.80\n")))
      [.read, .flag flaggedMeanwhile, .ask [⟨['s'], 3⟩], .rewrite] := by
  intro h
  have hlost := h.last (by decide +kernel) flaggedMeanwhile.line (by decide +kernel)
  exact absurd hlost (by decide +kernel)

end Nyet
