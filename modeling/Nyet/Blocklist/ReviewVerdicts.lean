import Nyet.Blocklist.BlockLines
import Nyet.Blocklist.Coverage
import Nyet.Blocklist.Review

/-!
# What review decisions mean to the loader

`append_to_list` writes a `B` row whatever the key is and whichever file it is told, so what a
session blocks is blocked, and what it was to learn is blocked as well. Either file is continued
at its end and `learned.tsv` is loaded behind `blocklist.tsv`, so a row that `learned.tsv` has for
a root already comes behind the line written for it (`Orderly.lastStatus_after`).

`review_decisions_iff` says for which queues, lists and answers a session keeps its word. In an
orderly one it does if what is learned was BLOCKED before, or is under an `A` row at whose path
nothing is written, and nothing to be blocked is left to a `REVIEW` row of `learned.tsv`.
-/

namespace Nyet

/-- The columns `append_to_list` writes. -/
def Writing.blockLine (w : Writing) : BlockLine := ⟨w.domain, w.flag, w.time, 60, w.note⟩

theorem Writing.blockLine_text (w : Writing) :
    w.blockLine.text = listLine w.domain w.flag w.time w.note := by
  have hcolumns : "\t1\t60\t".toList =
      "\t1\t".toList ++ (Nat.toDigits 10 60 ++ "\t".toList) := by decide
  unfold listLine blockLine BlockLine.text
  rw [hcolumns]
  simp only [List.append_assoc]

theorem Writing.line_of_plain {w : Writing} (h : w.blockLine.Plain) :
    w.line = some w.blockLine.text := by
  have hascii := h.ascii
  rw [w.blockLine_text] at hascii ⊢
  exact if_pos (List.all_eq_true.mpr fun c hc => decide_eq_true (hascii c hc))

/-- A domain is below the roots it ends with. -/
theorem pathOf_of_under {domain root : List Char} (h : Under domain root) :
    pathOf root <+: pathOf domain := by
  rcases h with rfl | h
  · exact List.prefix_refl _
  · exact pathOf_of_suffix h

/-! ## The rows of the files -/

/-- The rows of the two files. -/
def listedRows (now : UInt32) (files : ListPath → Option CStr) : List Row :=
  rowsOf now (files .blockFile) ++ rowsOf now (files .learnedFile)

/-- The tree of the two files. -/
def listedTree (now : UInt32) (files : ListPath → Option CStr) : RadixTree :=
  initialTree now (files .blockFile) (files .learnedFile)

theorem rowsOf_getD (now : UInt32) (file : Option CStr) :
    rowsOf now (some (file.getD [])) = rowsOf now file := by
  cases file <;> rfl

section Session

variable {classify : List Char → List Char} {files : ListPath → Option CStr} {s : Session}

/-- The rows of the old files and of the lines written, as far as these are lines of their own. -/
def continuedRows (now : UInt32) (classify : List Char → List Char)
    (files : ListPath → Option CStr) (reviewed : List Reviewed) : List Row :=
  listedRows now fun filepath => some (continued classify files reviewed filepath)

theorem Session.Kept.listedRows (h : s.Kept classify files) (now : UInt32) :
    listedRows now s.files = continuedRows now classify files s.reviewed := by
  unfold continuedRows Nyet.listedRows
  dsimp only
  rw [← h.files_eq, ← h.files_eq, rowsOf_getD, rowsOf_getD]

end Session

/-! ## Decisions -/

/-- The domains a key was pressed for; those passed over if there is none. -/
def domainsWith (press : Option Press) (reviewed : List Reviewed) : List (List Char) :=
  (reviewed.filter fun r => r.pressed.map Prod.fst = press).map Reviewed.domain

theorem mem_domainsWith {press : Option Press} {reviewed : List Reviewed} {d : List Char} :
    d ∈ domainsWith press reviewed ↔
      ∃ r ∈ reviewed, r.pressed.map Prod.fst = press ∧ r.domain = d := by
  show d ∈ (reviewed.filter _).map _ ↔ _
  simp only [List.mem_map, List.mem_filter, decide_eq_true_eq, and_assoc]

/-- What is to be blocked: the domains answered `b`, the roots nuked, and the domains passed over
because of them. -/
def ReviewEnd.condemned (e : ReviewEnd) : List (List Char) :=
  domainsWith (some .block) e.reviewed ++ e.nukedRoots ++ domainsWith none e.reviewed

/-- **Decisions mean what they say.** What is to be blocked is BLOCKED unless an `A` row covers
it, and what is to be learned is not BLOCKED unless it was. -/
structure DecisionsHold (now : UInt32) (files : ListPath → Option CStr) (e : ReviewEnd) : Prop where
  blocked : ∀ d ∈ e.condemned, ¬ Covered (listedRows now e.files) .allowed (pathOf d) →
    ∀ asked, (radixLookup (listedTree now e.files) asked (utf8 d)).1.outcome = some .blocked
  learned : ∀ d ∈ domainsWith (some .learn) e.reviewed, ∀ asked,
    (radixLookup (listedTree now e.files) asked (utf8 d)).1.outcome = some .blocked →
      (radixLookup (listedTree now files) asked (utf8 d)).1.outcome = some .blocked

/-- What has to hold of the rows before a session and after it. -/
structure RowsHold (rows rows' : List Row) (condemned learned : List (List Char)) : Prop where
  blocked : ∀ d ∈ condemned, ¬ Covered rows' .allowed (pathOf d) →
    (utf8 d).length < labelBufSize ∧ Covered rows' .blocked (pathOf d)
  learned : ∀ d ∈ learned, (utf8 d).length < labelBufSize → Covered rows' .blocked (pathOf d) →
    ¬ Covered rows' .allowed (pathOf d) →
      Covered rows .blocked (pathOf d) ∧ ¬ Covered rows .allowed (pathOf d)

theorem listedTree_refines (now : UInt32) (files : ListPath → Option CStr) :
    RootRefines (listedTree now files).root (some (loadLog (listedRows now files))) :=
  initialTree_refines now (files .blockFile) (files .learnedFile)

theorem decisionsHold_iff_rows {now : UInt32} {files : ListPath → Option CStr} {e : ReviewEnd} :
    DecisionsHold now files e ↔
      RowsHold (listedRows now files) (listedRows now e.files) e.condemned
        (domainsWith (some .learn) e.reviewed) := by
  have hafter := fun asked q => lookup_blocked_iff (listedTree_refines now e.files) asked q
  have hbefore := fun asked q => lookup_blocked_iff (listedTree_refines now files) asked q
  constructor
  · rintro ⟨hblocked, hlearned⟩
    refine ⟨fun d hd hfree => ?_, fun d hd hlen hcovered hfree => ?_⟩
    · obtain ⟨hlen, hcovered, -⟩ := (hafter 0 _).mp (hblocked d hd hfree 0)
      exact ⟨hlen, hcovered⟩
    · exact ((hbefore 0 _).mp (hlearned d hd 0 ((hafter 0 _).mpr ⟨hlen, hcovered, hfree⟩))).2
  · rintro ⟨hblocked, hlearned⟩
    refine ⟨fun d hd hfree asked => ?_, fun d hd asked hlookup => ?_⟩
    · obtain ⟨hlen, hcovered⟩ := hblocked d hd hfree
      exact (hafter asked _).mpr ⟨hlen, hcovered, hfree⟩
    · obtain ⟨hlen, hcovered, hfree⟩ := (hafter asked _).mp hlookup
      exact (hbefore asked _).mpr ⟨hlen, hlearned d hd hlen hcovered hfree⟩

/-! ## By queue, lists and answers -/

section Conditions

variable (now : UInt32) (classify : List Char → List Char) (files : ListPath → Option CStr)
  (reviewed : List Reviewed)

/-- What is to be blocked, by the domains gone through. -/
def condemnedOf : List (List Char) :=
  domainsWith (some .block) reviewed ++ reviewed.filterMap (Reviewed.newRoot classify) ++
    domainsWith none reviewed

/-- The paths at which a line is written to a file. -/
def writtenPaths (filepath : ListPath) : List (List Label) :=
  ((reviewed.filterMap (Reviewed.writing classify)).filter fun w => w.filepath = filepath).map
    fun w => pathOf w.domain

/-- Old files that are empty or ended, and lines to write that are plain; domains passed over that
are short enough to be looked up. -/
structure Orderly : Prop where
  ended : ∀ filepath, EndsInNewline ((files filepath).getD [])
  plain : ∀ r ∈ reviewed, ∀ w, r.writing classify = some w → w.blockLine.Plain
  short : ∀ r ∈ reviewed, r.pressed = none → (utf8 r.domain).length < labelBufSize

/-- An `A` row stands at the path: nothing is learned there, and it is the last row of
`learned.tsv`, or of `blocklist.tsv` if `learned.tsv` has none and nothing is blocked there. -/
def AllowStands (ks : List Label) : Prop :=
  ks ∉ writtenPaths classify reviewed .learnedFile ∧
    (lastStatus (rowsOf now (files .learnedFile)) ks = some .allowed ∨
      lastStatus (rowsOf now (files .learnedFile)) ks = none ∧
        ks ∉ writtenPaths classify reviewed .blockFile ∧
        lastStatus (rowsOf now (files .blockFile)) ks = some .allowed)

/-- The path is not left to a `REVIEW` row: something is written there, or the last row is another
one, and `learned.tsv` has no `REVIEW` row for it, or something is learned behind that. -/
def Settled (ks : List Label) : Prop :=
  (lastStatus (rowsOf now (files .learnedFile)) ks = some .review →
      ks ∈ writtenPaths classify reviewed .learnedFile) ∧
    (ks ∈ writtenPaths classify reviewed .learnedFile ∨
      ks ∈ writtenPaths classify reviewed .blockFile ∨
      lastStatus (listedRows now files) ks = some .allowed ∨
      lastStatus (listedRows now files) ks = some .blocked)

/-- What is to be blocked is at or below a path that is not left to a `REVIEW` row, and what is to
be learned was BLOCKED before or is at or below an `A` row that stands. -/
structure DecisionsStand : Prop where
  blocked : ∀ d ∈ condemnedOf classify reviewed,
    ∃ ks, ks <+: pathOf d ∧ Settled now classify files reviewed ks
  learned : ∀ d ∈ domainsWith (some .learn) reviewed,
    Covered (listedRows now files) .blocked (pathOf d) ∧
        ¬ Covered (listedRows now files) .allowed (pathOf d) ∨
      ∃ ks, ks <+: pathOf d ∧ AllowStands now classify files reviewed ks

/-- In an orderly session the decisions stand. In any other, the rows have to be right. -/
def DecisionsKept : Prop :=
  (Orderly classify files reviewed → DecisionsStand now classify files reviewed) ∧
  (¬ Orderly classify files reviewed →
    RowsHold (listedRows now files) (continuedRows now classify files reviewed)
      (condemnedOf classify reviewed) (domainsWith (some .learn) reviewed))

end Conditions

theorem mem_writtenPaths {classify : List Char → List Char} {reviewed : List Reviewed}
    {filepath : ListPath} {ks : List Label} :
    ks ∈ writtenPaths classify reviewed filepath ↔
      ∃ r ∈ reviewed, ∃ w, r.writing classify = some w ∧ w.filepath = filepath ∧
        pathOf w.domain = ks := by
  rw [writtenPaths]
  simp only [List.mem_map, List.mem_filter, List.mem_filterMap, decide_eq_true_eq]
  constructor
  · rintro ⟨w, ⟨⟨r, hr, hw⟩, hpath⟩, rfl⟩
    exact ⟨r, hr, w, hw, hpath, rfl⟩
  · rintro ⟨r, hr, w, hw, hpath, rfl⟩
    exact ⟨w, ⟨⟨r, hr, hw⟩, hpath⟩, rfl⟩

/-- What an answer `b` or `l` is written down as. -/
theorem writing_of_press (classify : List Char → List Char) {r : Reviewed} {press : Press}
    (h : r.pressed.map Prod.fst = some press) :
    (press = .block → ∃ w, r.writing classify = some w ∧ w.filepath = .blockFile ∧
      w.domain = r.domain) ∧
    (press = .learn → ∃ w, r.writing classify = some w ∧ w.filepath = .learnedFile ∧
      w.domain = r.domain) := by
  obtain ⟨⟨press', t⟩, hpressed, rfl⟩ := Option.map_eq_some_iff.mp h
  rw [Reviewed.writing]
  rw [hpressed]
  constructor
  · rintro (rfl : press' = .block)
    exact ⟨_, rfl, rfl, rfl⟩
  · rintro (rfl : press' = .learn)
    exact ⟨_, rfl, rfl, rfl⟩

/-- A root is the domain of a line written to `blocklist.tsv`. -/
theorem writing_of_newRoot {classify : List Char → List Char} {r : Reviewed} {root : List Char}
    (h : r.newRoot classify = some root) :
    ∃ w, r.writing classify = some w ∧ w.filepath = .blockFile ∧ w.domain = root := by
  obtain ⟨w, hw, hroot⟩ := Option.bind_eq_some_iff.mp h
  split at hroot
  · next hpath => exact ⟨w, hw, hpath.1, Option.some.inj hroot⟩
  · cases hroot

namespace Orderly

variable {now : UInt32} {classify : List Char → List Char} {files : ListPath → Option CStr}
  {reviewed : List Reviewed}

/-- The rows of the lines written to a file. -/
theorem mem_rows (ho : Orderly classify files reviewed) {filepath : ListPath} {row : Row}
    (hrow : row ∈ (writtenLines classify filepath reviewed).flatMap (textRows now)) :
    row.entry.status = .blocked ∧
      (normalise row.domain) ∈ writtenPaths classify reviewed filepath := by
  obtain ⟨line, hline, hmem⟩ := List.mem_flatMap.mp hrow
  obtain ⟨r, hr, w, hw, hpath, hwline⟩ := mem_writtenLines.mp hline
  have hplain := ho.plain r hr w hw
  rw [w.line_of_plain hplain, Option.some_inj] at hwline
  obtain ⟨e, hst, hrows⟩ := hplain.textRows now
  rw [← hwline, hrows] at hmem
  rw [List.mem_singleton.mp hmem]
  exact ⟨hst, mem_writtenPaths.mpr ⟨r, hr, w, hw, hpath, rfl⟩⟩

/-- What the lines written to a file say. -/
theorem lastStatus_written (ho : Orderly classify files reviewed) (filepath : ListPath)
    (ks : List Label) :
    lastStatus ((writtenLines classify filepath reviewed).flatMap (textRows now)) ks =
      if ks ∈ writtenPaths classify reviewed filepath then some .blocked else none := by
  rw [lastStatus_eq_ite fun row hrow => (ho.mem_rows hrow).1]
  refine if_congr ⟨?_, fun hks => ?_⟩ rfl rfl
  · rintro ⟨row, hrow, -, rfl⟩
    exact (ho.mem_rows hrow).2
  · obtain ⟨r, hr, w, hw, hpath, rfl⟩ := mem_writtenPaths.mp hks
    have hplain := ho.plain r hr w hw
    obtain ⟨e, -, hrows⟩ := hplain.textRows now
    have hline := mem_writtenLines.mpr ⟨r, hr, w, hw, hpath, w.line_of_plain hplain⟩
    refine ⟨⟨utf8 w.domain, e⟩, List.mem_flatMap.mpr ⟨_, hline, ?_⟩, hplain.insertable, rfl⟩
    rw [hrows]
    exact List.mem_singleton_self _

/-- The rows of a file, and behind them those of the lines written. -/
theorem rowsOf_continued (ho : Orderly classify files reviewed) (filepath : ListPath) :
    rowsOf now (some (continued classify files reviewed filepath)) =
      rowsOf now (files filepath) ++
        (writtenLines classify filepath reviewed).flatMap (textRows now) := by
  have hlines : (writtenLines classify filepath reviewed).Pairwise
      fun line _ => line.getLast? = some '\n' := by
    refine List.pairwise_of_forall_mem_list fun line hline _ _ => ?_
    obtain ⟨-, -, w, -, -, hw⟩ := mem_writtenLines.mp hline
    exact w.getLast?_line hw
  rw [continued, rowsOf_append now _ (ho.ended filepath), rowsOf_getD,
    ← textRows_flatten now hlines]
  rfl

/-- **The last row of a path after the session**: what is learned there comes last, then what
`learned.tsv` had, then what is blocked there, then what `blocklist.tsv` had. -/
theorem lastStatus_after (ho : Orderly classify files reviewed) (ks : List Label) :
    lastStatus (continuedRows now classify files reviewed) ks =
      (if ks ∈ writtenPaths classify reviewed .learnedFile then some .blocked else none).or
        ((lastStatus (rowsOf now (files .learnedFile)) ks).or
          ((if ks ∈ writtenPaths classify reviewed .blockFile then some .blocked else none).or
            (lastStatus (rowsOf now (files .blockFile)) ks))) := by
  rw [continuedRows, listedRows]
  rw [ho.rowsOf_continued, ho.rowsOf_continued, lastStatus_append, lastStatus_append,
    lastStatus_append, ho.lastStatus_written, ho.lastStatus_written, Option.or_assoc]

theorem allowed_after (ho : Orderly classify files reviewed) (ks : List Label) :
    lastStatus (continuedRows now classify files reviewed) ks = some .allowed ↔
      AllowStands now classify files reviewed ks := by
  rw [ho.lastStatus_after, AllowStands]
  by_cases hlearned : ks ∈ writtenPaths classify reviewed .learnedFile
  · rw [if_pos hlearned]
    exact iff_of_false (fun h => nomatch h) fun h => h.1 hlearned
  · rw [if_neg hlearned, Option.none_or]
    cases lastStatus (rowsOf now (files .learnedFile)) ks with
    | some st => simp [hlearned]
    | none =>
      by_cases hblocked : ks ∈ writtenPaths classify reviewed .blockFile
      · simp [hlearned, hblocked]
      · simp [hlearned, hblocked]

theorem settled_after (ho : Orderly classify files reviewed) (ks : List Label) :
    lastStatus (continuedRows now classify files reviewed) ks = some .allowed ∨
        lastStatus (continuedRows now classify files reviewed) ks = some .blocked ↔
      Settled now classify files reviewed ks := by
  rw [ho.lastStatus_after, Settled, listedRows, lastStatus_append]
  by_cases hlearned : ks ∈ writtenPaths classify reviewed .learnedFile
  · simp [hlearned]
  · rw [if_neg hlearned, Option.none_or]
    cases lastStatus (rowsOf now (files .learnedFile)) ks with
    | some st => cases st <;> simp [hlearned]
    | none =>
      by_cases hblocked : ks ∈ writtenPaths classify reviewed .blockFile
      · simp [hlearned, hblocked]
      · simp [hlearned, hblocked]

/-- What is to be blocked can be looked up. -/
theorem length_condemned (ho : Orderly classify files reviewed) {d : List Char}
    (hd : d ∈ condemnedOf classify reviewed) : (utf8 d).length < labelBufSize := by
  rw [condemnedOf, List.mem_append, List.mem_append] at hd
  rcases hd with (hd | hd) | hd
  · obtain ⟨r, hr, hpressed, rfl⟩ := mem_domainsWith.mp hd
    obtain ⟨w, hw, -, hdomain⟩ := (writing_of_press classify hpressed).1 rfl
    rw [← hdomain]
    exact (ho.plain r hr w hw).insertable.1
  · obtain ⟨r, hr, hroot⟩ := List.mem_filterMap.mp hd
    obtain ⟨w, hw, -, rfl⟩ := writing_of_newRoot hroot
    exact (ho.plain r hr w hw).insertable.1
  · obtain ⟨r, hr, hpressed, rfl⟩ := mem_domainsWith.mp hd
    exact ho.short r hr (Option.map_eq_none_iff.mp hpressed)

/-- What is to be learned can be looked up, and is blocked at its own path. -/
theorem learned_after (ho : Orderly classify files reviewed) {d : List Char}
    (hd : d ∈ domainsWith (some .learn) reviewed) :
    (utf8 d).length < labelBufSize ∧
      Covered (continuedRows now classify files reviewed) .blocked (pathOf d) := by
  obtain ⟨r, hr, hpressed, rfl⟩ := mem_domainsWith.mp hd
  obtain ⟨w, hw, hpath, hdomain⟩ := (writing_of_press classify hpressed).2 rfl
  have hplain := ho.plain r hr w hw
  rw [← hdomain]
  refine ⟨hplain.insertable.1, pathOf w.domain, hplain.insertable.2, List.prefix_refl _, ?_⟩
  rw [ho.lastStatus_after, if_pos (mem_writtenPaths.mpr ⟨r, hr, w, hw, hpath, rfl⟩)]
  rfl

/-- **An orderly session keeps its word** if the decisions stand. -/
theorem rowsHold_iff (ho : Orderly classify files reviewed) :
    RowsHold (listedRows now files) (continuedRows now classify files reviewed)
        (condemnedOf classify reviewed) (domainsWith (some .learn) reviewed) ↔
      DecisionsStand now classify files reviewed := by
  -- what covers a domain afterwards, by the paths at it and above it
  have hallowed : ∀ ls, Covered (continuedRows now classify files reviewed) .allowed ls ↔
      ∃ ks, ks <+: ls ∧ AllowStands now classify files reviewed ks := by
    intro ls
    constructor
    · rintro ⟨ks, -, hpre, hlast⟩
      exact ⟨ks, hpre, (ho.allowed_after ks).mp hlast⟩
    · rintro ⟨ks, hpre, hstands⟩
      have hlast := (ho.allowed_after ks).mpr hstands
      exact ⟨ks, (exists_domain hlast).1, hpre, hlast⟩
  have hsettled : ∀ ls, Covered (continuedRows now classify files reviewed) .allowed ls ∨
      Covered (continuedRows now classify files reviewed) .blocked ls ↔
        ∃ ks, ks <+: ls ∧ Settled now classify files reviewed ks := by
    intro ls
    constructor
    · rintro (⟨ks, -, hpre, hlast⟩ | ⟨ks, -, hpre, hlast⟩)
      · exact ⟨ks, hpre, (ho.settled_after ks).mp (Or.inl hlast)⟩
      · exact ⟨ks, hpre, (ho.settled_after ks).mp (Or.inr hlast)⟩
    · rintro ⟨ks, hpre, hst⟩
      rcases (ho.settled_after ks).mpr hst with hlast | hlast
      · exact Or.inl ⟨ks, (exists_domain hlast).1, hpre, hlast⟩
      · exact Or.inr ⟨ks, (exists_domain hlast).1, hpre, hlast⟩
  constructor
  · rintro ⟨hblocked, hlearned⟩
    refine ⟨fun d hd => (hsettled _).mp ?_, fun d hd => ?_⟩
    · exact or_iff_not_imp_left.mpr fun hfree => (hblocked d hd hfree).2
    · obtain ⟨hlen, hcovered⟩ := ho.learned_after hd
      refine or_iff_not_imp_right.mpr fun hnone => ?_
      exact hlearned d hd hlen hcovered fun h => hnone ((hallowed _).mp h)
  · rintro ⟨hblocked, hlearned⟩
    refine ⟨fun d hd hfree => ?_, fun d hd _ _ hfree => ?_⟩
    · exact ⟨ho.length_condemned hd, ((hsettled _).mpr (hblocked d hd)).resolve_left hfree⟩
    · exact (hlearned d hd).resolve_right fun h => hfree ((hallowed _).mpr h)

end Orderly

variable (now : UInt32) (py : Python) (classify : List Char → List Char)
  (files : ListPath → Option CStr) (review : Option CStr) (answers : List TypedAnswer)

/-- **What is to be blocked is**, whatever is passed over because of it, as long as `learned.tsv`
has no `REVIEW` row at the path of a root. -/
theorem condemned_settled
    (hreview : ∀ ks ∈ writtenPaths classify
        (dialogue classify py [] (reviewQueue py files review) answers) .blockFile,
      lastStatus (rowsOf now (files .learnedFile)) ks ≠ some .review) :
    ∀ d ∈ condemnedOf classify (dialogue classify py [] (reviewQueue py files review) answers),
      ∃ ks, ks <+: pathOf d ∧ Settled now classify files
        (dialogue classify py [] (reviewQueue py files review) answers) ks := by
  have hpassed := (@interactiveReview_kept py classify files review answers).passed
  obtain ⟨hreviewed, hroots⟩ := @interactiveReview_reviewed py classify files review answers
  dsimp only at hpassed
  rw [hreviewed] at hpassed
  generalize dialogue classify py [] (reviewQueue py files review) answers = reviewed at *
  have hsettled : ∀ ks ∈ writtenPaths classify reviewed .blockFile,
      Settled now classify files reviewed ks :=
    fun ks hks => ⟨fun hlast => absurd hlast (hreview ks hks), Or.inr (Or.inl hks)⟩
  have hroot : ∀ root ∈ reviewed.filterMap (Reviewed.newRoot classify),
      pathOf root ∈ writtenPaths classify reviewed .blockFile := by
    intro root hroot
    obtain ⟨r, hr, hnew⟩ := List.mem_filterMap.mp hroot
    obtain ⟨w, hw, hpath, rfl⟩ := writing_of_newRoot hnew
    exact mem_writtenPaths.mpr ⟨r, hr, w, hw, hpath, rfl⟩
  intro d hd
  rw [condemnedOf, List.mem_append, List.mem_append] at hd
  rcases hd with (hd | hd) | hd
  · obtain ⟨r, hr, hpressed, rfl⟩ := mem_domainsWith.mp hd
    obtain ⟨w, hw, hpath, hdomain⟩ := (writing_of_press classify hpressed).1 rfl
    refine ⟨_, List.prefix_refl _, hsettled _ ?_⟩
    exact mem_writtenPaths.mpr ⟨r, hr, w, hw, hpath, congrArg pathOf hdomain⟩
  · exact ⟨_, List.prefix_refl _, hsettled _ (hroot d hd)⟩
  · -- passed over because of a root above it
    obtain ⟨r, hr, hpressed, rfl⟩ := mem_domainsWith.mp hd
    obtain ⟨root, hmem, hunder⟩ := hpassed r hr (Option.map_eq_none_iff.mp hpressed)
    exact ⟨_, pathOf_of_under hunder, hsettled _ (hroot root ((hroots root).mp hmem))⟩

/-- **When review decisions mean what they say.** -/
theorem review_decisions_iff :
    DecisionsHold now files (interactiveReview py classify files review answers) ↔
      DecisionsKept now classify files
        (dialogue classify py [] (reviewQueue py files review) answers) := by
  have h := @interactiveReview_kept py classify files review answers
  obtain ⟨hreviewed, hroots⟩ := @interactiveReview_reviewed py classify files review answers
  generalize interactiveReview py classify files review answers = e at h hreviewed hroots ⊢
  generalize dialogue classify py [] (reviewQueue py files review) answers = reviewed at *
  subst hreviewed
  -- the rows of the files it leaves are the old ones, continued by what the keys stand for
  have hrows : listedRows now e.files = continuedRows now classify files e.reviewed :=
    h.listedRows now
  have hcondemned : ∀ d, d ∈ e.condemned ↔ d ∈ condemnedOf classify e.reviewed := by
    intro d
    rw [ReviewEnd.condemned, condemnedOf]
    simp only [List.mem_append, hroots]
  have hhold : RowsHold (listedRows now files) (listedRows now e.files) e.condemned
      (domainsWith (some .learn) e.reviewed) ↔
        RowsHold (listedRows now files) (continuedRows now classify files e.reviewed)
          (condemnedOf classify e.reviewed) (domainsWith (some .learn) e.reviewed) := by
    rw [hrows]
    exact ⟨fun h => ⟨fun d hd => h.blocked d ((hcondemned d).mpr hd), h.learned⟩,
      fun h => ⟨fun d hd => h.blocked d ((hcondemned d).mp hd), h.learned⟩⟩
  rw [decisionsHold_iff_rows, hhold]
  by_cases ho : Orderly classify files e.reviewed
  · rw [ho.rowsHold_iff]
    exact ⟨fun hstand => ⟨fun _ => hstand, fun hnot => absurd ho hnot⟩, fun hkept => hkept.1 ho⟩
  · exact ⟨fun hhold => ⟨fun ho' => absurd ho' ho, fun _ => hhold⟩, fun hkept => hkept.2 ho⟩

/-- A queue of one domain. -/
def oneToReview : CStr := cstr "REVIEW\texample.com\theuristic\t1\t1\t1\tentropy\n"

/-- A domain that is learned is BLOCKED from then on. -/
theorem learnedExample_blocked :
    ¬ DecisionsHold 0 (fun _ => none)
      (interactiveReview .ascii (fun _ => "suspicious / telemetry domain".toList) (fun _ => none)
        (some oneToReview) [⟨['l'], 5⟩]) := by
  intro h
  exact absurd (h.learned "example.com".toList (by decide +kernel) 0 (by decide +kernel))
    (by decide +kernel)

end Nyet
