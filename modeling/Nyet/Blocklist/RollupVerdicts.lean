import Nyet.Blocklist.RolledUp

/-!
# What rolling up does to verdicts

Suffix matching makes a rule for the ancestor as good as rows for its subdomains, as long as
these are all BLOCKED and what is written is what is loaded. `rollup_keeps_allowed_iff` and
`rollup_keeps_blocked_iff` say for which files and answers the verdicts of the old file
survive. In a tidy file it is a matter of the groups and the answers: an `A` row is lost if it
is replaced, and a `B` row if a `REVIEW` row comes to stand behind the rule for it, if a comment
is filed after it, or if its line or the rule is joined to the last line of the file. Where there
are no such lines nothing is ever unblocked (`Tidy.blocksStand`).
-/

namespace Nyet

open Lib

section Conditions

variable (py : Python) (now : UInt32) (file : CStr) (choices : List Choice)

/-- Every path whose last row is an `A` row has, at it or above it, one whose last surviving row
is. -/
def AllowsSurvive : Prop :=
  ∀ ks, lastStatus (rowsOf now (some file)) ks = some .allowed →
    Covered (survivingRows py now (fileLines py file) choices) .allowed ks

/-- Every path whose last row is a `B` row and that is not ALLOWED has, at it or above it, one
whose last surviving row is; and of the paths above and below it, only those that were ALLOWED
have a last surviving row that is an `A` row. -/
def BlocksSurvive : Prop :=
  ∀ ks, lastStatus (rowsOf now (some file)) ks = some .blocked →
    ¬ Covered (rowsOf now (some file)) .allowed ks →
      Covered (survivingRows py now (fileLines py file) choices) .blocked ks ∧
        ∀ ps, ps <+: ks ∨ ks <+: ps →
          lastStatus (survivingRows py now (fileLines py file) choices) ps = some .allowed →
            Covered (rowsOf now (some file)) .allowed ps

/-- Every ALLOWED domain has, at it or above it, one whose last line is an `A` row and is not
touched: it is spared, and if the domain is in no group, there is no rule for it. -/
def AllowsStand : Prop :=
  ∀ d ∈ filedDomains py (fileLines py file),
    domainStatus py now (fileLines py file) d = some .allowed →
      ∃ n ∈ filedDomains py (fileLines py file), pathOf n <+: pathOf d ∧
        KeepsLine py (fileLines py file) choices n ∧
        lastLineStatus py now (fileLines py file) n = some .allowed ∧
        (n ∈ ungroupedDomains py (fileLines py file) → ¬ HasRule py (fileLines py file) choices n)

/-- Every domain with a `B` row that has no `A` row at it or above it has, at it or above it, a
name that is left with one: by its own last line or by a rule. -/
def BlocksStand : Prop :=
  ∀ d ∈ filedDomains py (fileLines py file),
    domainStatus py now (fileLines py file) d = some .blocked →
      (∀ a ∈ filedDomains py (fileLines py file),
        domainStatus py now (fileLines py file) a = some .allowed → ¬ pathOf a <+: pathOf d) →
      ∃ n ∈ names py (fileLines py file), pathOf n <+: pathOf d ∧
        statusLeft py now (fileLines py file) choices n = some .blocked

instance : Decidable (AllowsStand py now file choices) :=
  inferInstanceAs (Decidable (∀ _ ∈ _, _))

instance : Decidable (BlocksStand py now file choices) :=
  inferInstanceAs (Decidable (∀ _ ∈ _, _))

end Conditions

/-! ## Tidy files -/

section Lines

variable {py : Python} {now : UInt32} {lines : List (List Char)} {choices : List Choice}

/-- What the last line of a domain says is what its last row says. -/
theorem domainStatus_of_lastLine {d : List Char} {st : Status} (hd : d ∈ filedDomains py lines)
    (hlast : lastLineStatus py now lines d = some st) : domainStatus py now lines d = some st := by
  have hkey := (lastLine_filed hd).2
  rw [lastLineStatus] at hlast
  obtain ⟨line, hfind⟩ : ∃ line, lines.reverse.find? (fun line => domainKey py line = some d) =
      some line := by
    obtain ⟨line, hline, hfiled⟩ := mem_filedDomains.mp hd
    exact Option.isSome_iff_exists.mp
      (List.find?_isSome.mpr ⟨line, List.mem_reverse.mpr hline, decide_eq_true hfiled⟩)
  have hline : lastLine py lines d = line := by
    rw [lastLine]
    rw [hfind]
    rfl
  rw [hline] at hlast hkey
  obtain ⟨-, back, front, hsplit, hback⟩ := List.find?_eq_some_iff_append.mp hfind
  have hlines : lines = front.reverse ++ (line :: back.reverse) := by
    rw [← List.reverse_reverse lines, hsplit]
    simp
  -- no line behind it is filed under the domain
  have hnone : lastEntry (filedEntries py now back.reverse) d = none := by
    refine lastEntry_eq_none.mpr fun x hx heq => ?_
    obtain ⟨other, hother, hentry⟩ := List.mem_filterMap.mp hx
    obtain ⟨d', hd', hst⟩ := Option.bind_eq_some_iff.mp hentry
    obtain ⟨st', -, rfl⟩ := Option.map_eq_some_iff.mp hst
    have hnot := hback other (List.mem_reverse.mp hother)
    obtain rfl : d' = d := heq
    simp [hd'] at hnot
  have hentries : filedEntries py now lines =
      filedEntries py now front.reverse ++ ((d, st) :: filedEntries py now back.reverse) := by
    rw [filedEntries] at *
    rw [hlines, List.filterMap_append, List.filterMap_cons_some (by rw [hkey, hlast]; rfl)]
    rfl
  rw [domainStatus]
  rw [hentries, lastEntry_append, lastEntry_cons, hnone, if_pos rfl]
  rfl

/-- A name is left with an `A` row if it has one that is not touched. -/
theorem statusLeft_allowed {n : List Char} :
    statusLeft py now lines choices n = some .allowed ↔
      KeepsLine py lines choices n ∧ lastLineStatus py now lines n = some .allowed ∧
        (n ∈ ungroupedDomains py lines → ¬ HasRule py lines choices n) := by
  have hrule : ∀ o : Option Status, (some Status.blocked).or o ≠ some .allowed :=
    fun o heq => nomatch heq
  have hlast : ∀ o : Option Status, o.or (some .blocked) = some .allowed ↔ o = some .allowed := by
    intro o
    cases o <;> simp
  unfold statusLeft
  dsimp only
  by_cases hkeeps : KeepsLine py lines choices n
  · by_cases hhas : HasRule py lines choices n
    · by_cases hfree : n ∈ ungroupedDomains py lines
      · simp only [hkeeps, hhas, hfree, if_true, hrule, not_true_eq_false, imp_false, and_false]
      · simp only [hkeeps, hhas, hfree, if_true, if_false, hlast, true_and, false_imp_iff,
          and_true]
    · simp only [hkeeps, hhas, if_true, if_false, Option.or_none, Option.none_or, ite_self,
        true_and, not_false_eq_true, implies_true, and_true]
  · simp only [hkeeps, if_false, Option.or_none, Option.none_or, ite_self, false_and, iff_false]
    split
    · exact fun heq => nomatch heq
    · exact fun heq => nomatch heq

end Lines

namespace Tidy

variable {py : Python} {now : UInt32} {file : CStr} {choices : List Choice}

/-- What is left at a path is left by a name. -/
theorem covered_survivors_iff (h : Tidy py now file choices) {st : Status} {ls : List Label} :
    Covered (survivingRows py now (fileLines py file) choices) st ls ↔
      ∃ n ∈ names py (fileLines py file), pathOf n <+: ls ∧
        statusLeft py now (fileLines py file) choices n = some st := by
  constructor
  · rintro ⟨ks, -, hpre, hlast⟩
    obtain ⟨n, rfl, hleft⟩ := h.exists_name hlast
    exact ⟨n, mem_names_of_statusLeft hleft, hpre, hleft⟩
  · rintro ⟨n, hn, hpre, hleft⟩
    rw [← h.lastStatus_survivors hn] at hleft
    exact ⟨pathOf n, (exists_domain hleft).1, hpre, hleft⟩

/-- What the file says at a path it says of a domain. -/
theorem covered_file_iff (h : Tidy py now file choices) {st : Status} {ls : List Label} :
    Covered (rowsOf now (some file)) st ls ↔
      ∃ d ∈ filedDomains py (fileLines py file), pathOf d <+: ls ∧
        domainStatus py now (fileLines py file) d = some st := by
  constructor
  · rintro ⟨ks, -, hpre, hlast⟩
    obtain ⟨d, hd, rfl, hst⟩ := h.exists_filed hlast
    exact ⟨d, hd, hpre, hst⟩
  · rintro ⟨d, hd, hpre, hst⟩
    have hlast := h.lastStatus_file (mem_names_of_filed hd)
    rw [hst] at hlast
    exact ⟨pathOf d, (exists_domain hlast).1, hpre, hlast⟩

/-- **What is ALLOWED in a tidy file** stays so if it is not touched. -/
theorem allowsSurvive_iff (h : Tidy py now file choices) :
    AllowsSurvive py now file choices ↔ AllowsStand py now file choices := by
  rw [AllowsSurvive, AllowsStand]
  simp only [h.covered_survivors_iff]
  constructor
  · intro hsurvive d hd hst
    have hlast := h.lastStatus_file (mem_names_of_filed hd)
    obtain ⟨n, -, hpre, hleft⟩ := hsurvive (pathOf d) (hlast.trans hst)
    obtain ⟨hkeeps, hallowed⟩ := statusLeft_allowed.mp hleft
    exact ⟨n, filed_of_own (mem_survivors_of_spared hkeeps), hpre, hkeeps, hallowed⟩
  · intro hstand ks hlast
    obtain ⟨d, hd, rfl, hst⟩ := h.exists_filed hlast
    obtain ⟨n, hn, hpre, huntouched⟩ := hstand d hd hst
    exact ⟨n, mem_names_of_filed hn, hpre, statusLeft_allowed.mpr huntouched⟩

/-- **What is BLOCKED in a tidy file** stays so if a name at it or above it is left with a `B`
row: nothing is ALLOWED that was not. -/
theorem blocksSurvive_iff (h : Tidy py now file choices) :
    BlocksSurvive py now file choices ↔ BlocksStand py now file choices := by
  rw [BlocksSurvive, BlocksStand]
  simp only [h.covered_survivors_iff, h.covered_file_iff]
  constructor
  · intro hsurvive d hd hst hfree
    refine (hsurvive (pathOf d) ?_ ?_).1
    · rw [h.lastStatus_file (mem_names_of_filed hd), hst]
    · rintro ⟨a, ha, hpre, hallowed⟩
      exact hfree a ha hallowed hpre
  · intro hstand ks hlast hfree
    obtain ⟨d, hd, rfl, hst⟩ := h.exists_filed hlast
    refine ⟨hstand d hd hst fun a ha hallowed hpre => hfree ⟨a, ha, hpre, hallowed⟩,
      fun ps _ hafter => ?_⟩
    -- an `A` row that is left was there before
    obtain ⟨n, rfl, hleft⟩ := h.exists_name hafter
    obtain ⟨hkeeps, hallowed, -⟩ := statusLeft_allowed.mp hleft
    have hfiled := filed_of_own (mem_survivors_of_spared hkeeps)
    exact ⟨n, hfiled, List.prefix_refl _, domainStatus_of_lastLine hfiled hallowed⟩

/-- **Nothing is unblocked** in a tidy file whose lines are ended, each of them with a row if it is
filed, and no domain's last one a `REVIEW` row: whatever the answers, nested ancestors and
duplicates included. -/
theorem blocksStand (hended : ∀ line ∈ fileLines py file, line.getLast? = some '\n')
    (hrows : ∀ line ∈ fileLines py file, (domainKey py line).isSome → textRows now line ≠ [])
    (hreview : ∀ d ∈ filedDomains py (fileLines py file),
      domainStatus py now (fileLines py file) d ≠ some .review)
    (hlength : choices.length = (groupedAncestors py (fileLines py file)).length) :
    BlocksStand py now file choices := by
  have hspared : spared py (fileLines py file) choices = survivors py (fileLines py file) choices := by
    refine unjoined_eq_self fun s hs => ?_
    cases s with
    | own d => exact hended _ (lastLine_filed (filed_of_own hs)).1
    | rule a t => exact BlockLine.getLast?_text _
  have hlast : ∀ d ∈ filedDomains py (fileLines py file),
      lastLineStatus py now (fileLines py file) d = domainStatus py now (fileLines py file) d := by
    intro d hd
    obtain ⟨hline, hkey⟩ := lastLine_filed hd
    cases hst : lastLineStatus py now (fileLines py file) d with
    | some st => exact (domainStatus_of_lastLine hd hst).symm
    | none =>
      rw [lastLineStatus, lineStatus, Option.map_eq_none_iff, List.head?_eq_none_iff] at hst
      exact absurd hst (hrows _ hline (hkey ▸ rfl))
  intro d hd hst hfree
  rcases own_or_rule hlength hd with hown | ⟨a, t, hrule, hmem⟩
  · have hkeeps : KeepsLine py (fileLines py file) choices d := by
      rw [KeepsLine]
      rwa [hspared]
    refine ⟨d, mem_names_of_filed hd, List.prefix_refl _, ?_⟩
    rw [statusLeft]
    rw [if_pos hkeeps, hlast d hd, hst]
    split <;> split <;> rfl
  · have hancestor := (mem_share.mp hmem).2.1
    refine ⟨a, List.mem_append_right _ (List.mem_flatMap.mpr ⟨d, hd, hancestor⟩),
      pathOf_of_suffix (suffix_of_mem_ancestorsOf hancestor), ?_⟩
    have hhas : HasRule py (fileLines py file) choices a := by
      rw [HasRule, hspared]
      exact mem_ruled.mpr ⟨t, hrule⟩
    rw [statusLeft]
    rw [if_pos hhas]
    split
    · rfl
    · split
      · next hkeeps =>
        -- the ancestor's own row comes behind the rule for it
        have hfiled := filed_of_own (mem_survivors_of_spared hkeeps)
        rw [hlast a hfiled]
        cases hstatus : domainStatus py now (fileLines py file) a with
        | none => rfl
        | some st =>
          cases st with
          | blocked => rfl
          | review => exact absurd hstatus (hreview a hfiled)
          | allowed =>
            exact absurd (pathOf_of_suffix (suffix_of_mem_ancestorsOf hancestor))
              (hfree a hfiled hstatus)
      · rfl

end Tidy

/-! ## Verdicts -/

variable (py : Python) (now : UInt32) (file : CStr) (answers : List TypedAnswer)

theorem fileTree_refines (f : CStr) :
    RootRefines (initialTree now (some f) none).root (some (loadLog (rowsOf now (some f)))) := by
  have h := initialTree_refines now (some f) none
  rwa [show rowsOf now none = [] from rfl, List.append_nil] at h

theorem keepsAllowed_iff_survive :
    KeepsAllowed (initialTree now (some file) none)
        (initialTree now (some (rolledUp py file answers)) none) ↔
      ∀ choices ∈ choicesFor py file answers, AllowsSurvive py now file choices := by
  rw [keepsAllowed_iff (fileTree_refines now file) (fileTree_refines now (rolledUp py file answers)),
    rowsOf_rolledUp]
  cases choicesFor py file answers with
  | none =>
    refine iff_of_true (fun ks hlast => ?_) fun choices h => nomatch h
    exact ⟨ks, (exists_domain hlast).1, List.prefix_refl _, hlast⟩
  | some choices => simp [AllowsSurvive]

theorem keepsBlocked_iff_survive :
    KeepsBlocked (initialTree now (some file) none)
        (initialTree now (some (rolledUp py file answers)) none) ↔
      ∀ choices ∈ choicesFor py file answers, BlocksSurvive py now file choices := by
  rw [keepsBlocked_iff (fileTree_refines now file) (fileTree_refines now (rolledUp py file answers)),
    rowsOf_rolledUp]
  cases choicesFor py file answers with
  | none =>
    refine iff_of_true (fun ks hlast hfree => ?_) fun choices h => nomatch h
    refine ⟨⟨ks, (exists_domain hlast).1, List.prefix_refl _, hlast⟩, fun ps _ hallowed => ?_⟩
    exact ⟨ps, (exists_domain hallowed).1, List.prefix_refl _, hallowed⟩
  | some choices => simp [BlocksSurvive]

/-- **When rolling up keeps what is ALLOWED.** -/
theorem rollup_keeps_allowed_iff :
    KeepsAllowed (initialTree now (some file) none)
        (initialTree now (some (rolledUp py file answers)) none) ↔
      ∀ choices ∈ choicesFor py file answers,
        (Tidy py now file choices → AllowsStand py now file choices) ∧
          (¬ Tidy py now file choices → AllowsSurvive py now file choices) := by
  rw [keepsAllowed_iff_survive]
  refine forall_congr' fun choices => forall_congr' fun _ => ?_
  by_cases h : Tidy py now file choices
  · rw [h.allowsSurvive_iff]
    exact ⟨fun hstand => ⟨fun _ => hstand, fun hnot => absurd h hnot⟩, fun hboth => hboth.1 h⟩
  · exact ⟨fun hsurvive => ⟨fun h' => absurd h' h, fun _ => hsurvive⟩, fun hboth => hboth.2 h⟩

/-- **When rolling up keeps what is BLOCKED.** -/
theorem rollup_keeps_blocked_iff :
    KeepsBlocked (initialTree now (some file) none)
        (initialTree now (some (rolledUp py file answers)) none) ↔
      ∀ choices ∈ choicesFor py file answers,
        (Tidy py now file choices → BlocksStand py now file choices) ∧
          (¬ Tidy py now file choices → BlocksSurvive py now file choices) := by
  rw [keepsBlocked_iff_survive]
  refine forall_congr' fun choices => forall_congr' fun _ => ?_
  by_cases h : Tidy py now file choices
  · rw [h.blocksSurvive_iff]
    exact ⟨fun hstand => ⟨fun _ => hstand, fun hnot => absurd h hnot⟩, fun hboth => hboth.1 h⟩
  · exact ⟨fun hsurvive => ⟨fun h' => absurd h' h, fun _ => hsurvive⟩, fun hboth => hboth.2 h⟩

/-- Three subdomains, one of them ALLOWED. -/
def mixedSubdomains : CStr :=
  cstr "B\ta.x.com\tS\nA\tb.x.com\tM\nB\tc.x.com\tS\n"

/-- The rule for their parent takes the `A` row with it. -/
theorem mixedSubdomains_not_kept :
    ¬ KeepsAllowed (initialTree 0 (some mixedSubdomains) none)
      (initialTree 0 (some (rolledUp .ascii mixedSubdomains [⟨['y'], 5⟩])) none) := by
  intro h
  have hnew : rolledUp .ascii mixedSubdomains [⟨['y'], 5⟩] =
      cstr "B\tx.com\tS\t5\t5\t1\t60\tconsolidated lineage rollup\n" := by decide +kernel
  rw [hnew] at h
  exact absurd (h 0 (cstr "b.x.com") (by decide +kernel)) (by decide +kernel)

/-- Three subdomains before a last line that has no end. -/
def unendedFile : CStr :=
  cstr "B\ta.x.com\tS\nB\tb.x.com\tS\nB\tc.x.com\tS\nB\ty.com\tS"

/-- The rule becomes a part of the last line. -/
theorem unendedFile_not_kept :
    ¬ KeepsBlocked (initialTree 0 (some unendedFile) none)
      (initialTree 0 (some (rolledUp .ascii unendedFile [⟨['y'], 5⟩])) none) := by
  intro h
  have hnew : rolledUp .ascii unendedFile [⟨['y'], 5⟩] =
      cstr "B\ty.com\tSB\tx.com\tS\t5\t5\t1\t60\tconsolidated lineage rollup\n" := by decide +kernel
  rw [hnew] at h
  exact absurd (h 0 (cstr "a.x.com") (by decide +kernel)) (by decide +kernel)

/-- The file is tidy, so it is for its groups and the answer that it fails. -/
example : Tidy .ascii 0 unendedFile [.collapse 5] ∧
    ¬ BlocksStand .ascii 0 unendedFile [.collapse 5] := by
  have hrows : ∀ line ∈ fileLines .ascii unendedFile, (textRows 0 line).length = 1 ∧
      ∀ row ∈ textRows 0 line, row.Loaded ∧
        ∀ d ∈ domainKey .ascii line, normalise row.domain = pathOf d := by decide +kernel
  have hgroups : groupChoices .ascii (fileLines .ascii unendedFile) [.collapse 5] =
      [("x.com".toList, .collapse 5)] := by decide +kernel
  have hopen : ∀ line ∈ fileLines .ascii unendedFile, line.getLast? ≠ some '\n' →
      line = "B\ty.com\tS".toList := by decide +kernel
  refine ⟨⟨by decide +kernel, by decide +kernel, fun line hline d hd => Or.inr ?_,
    by decide +kernel, fun a t hg => ?_, fun line hline _ hlast => Or.inr ?_, by decide +kernel⟩,
    by decide +kernel⟩
  · obtain ⟨hlength, hall⟩ := hrows line hline
    obtain ⟨row, hrow⟩ := List.length_eq_one_iff.mp hlength
    rw [hrow] at hall ⊢
    obtain ⟨hloaded, hpath⟩ := hall row List.mem_cons_self
    exact ⟨row, rfl, hloaded, hpath d hd⟩
  · rw [hgroups] at hg
    cases List.mem_singleton.mp hg
    have hprintable : ("x.com".toList ++ 'S' :: "consolidated lineage rollup".toList).all
        (fun c => Printable c) = true := by decide +kernel
    exact ⟨fun c hc => of_decide_eq_true (List.all_eq_true.mp hprintable c hc), by decide +kernel,
      by decide +kernel⟩
  · rw [hopen line hline hlast]
    exact ⟨[66], cstr "y.com", [83], by decide +kernel, by decide, by decide, by decide, by decide⟩

end Nyet
