import Nyet.Blocklist.BlockLines
import Nyet.Blocklist.Coverage
import Nyet.Blocklist.Framing
import Nyet.Blocklist.Rollup

/-!
# What is loaded after rolling up

The rows of the new file are those of the lines that survive (`rowsOf_rolledUp`), each loaded
by itself, but for a last line without an end that is not last any more: the line behind it is
joined to it, and lost.

In a tidy file a line is filed under the domain it has a row for, so what the loader makes of
the file is a list of domains with their statuses, the last one of a domain counting, and what
it makes of the lines that survive is another such list. `lastEntry_spared` says what becomes
of each domain: its own last line stands if it survives, before a rule for the domain if the
domain is in no group and behind it if it is in one that is kept.
-/

namespace Nyet

open Lib

/-! ## Loading the lines that survive -/

/-- A line that has no end runs into the next one. -/
def runOn : List (List Char) → List (List Char)
  | [] => []
  | line :: lines =>
    match runOn lines with
    | [] => [line]
    | next :: rest =>
      if line.getLast? = some '\n' then line :: next :: rest else (line ++ next) :: rest

theorem runOn_flatten (lines : List (List Char)) : (runOn lines).flatten = lines.flatten := by
  induction lines with
  | nil => rfl
  | cons line lines ih =>
    rw [runOn, List.flatten_cons, ← ih]
    split
    · next h => rw [h]; rfl
    · next next rest h =>
      rw [h]
      split
      · rfl
      · simp

theorem runOn_ended (lines : List (List Char)) :
    (runOn lines).Pairwise fun line _ => line.getLast? = some '\n' := by
  induction lines with
  | nil => exact List.Pairwise.nil
  | cons line lines ih =>
    rw [runOn]
    split
    · exact List.pairwise_singleton _ _
    · next next rest h =>
      rw [h] at ih
      split
      · next hend => exact List.pairwise_cons.mpr ⟨fun _ _ => hend, ih⟩
      · obtain ⟨hnext, hrest⟩ := List.pairwise_cons.mp ih
        refine List.pairwise_cons.mpr ⟨fun other hother => ?_, hrest⟩
        rw [List.getLast?_append, hnext other hother]
        rfl

/-- The rows of the lines that survive. -/
def survivingRows (py : Python) (now : UInt32) (lines : List (List Char)) (choices : List Choice) :
    List Row :=
  (runOn (survivingLines py lines choices)).flatMap (textRows now)

/-- **What is loaded from the new file.** -/
theorem rowsOf_rolledUp (py : Python) (now : UInt32) (file : CStr) (answers : List TypedAnswer) :
    rowsOf now (some (rolledUp py file answers)) =
      match choicesFor py file answers with
      | none => rowsOf now (some file)
      | some choices => survivingRows py now (fileLines py file) choices := by
  rw [rolledUp]
  rw [optimizeBlocklist_eq]
  cases choicesFor py file answers with
  | none => rfl
  | some choices =>
    show rowsOf now (some (utf8 (survivingLines py (fileLines py file) choices).flatten)) =
      (runOn (survivingLines py (fileLines py file) choices)).flatMap (textRows now)
    rw [← textRows_flatten now (runOn_ended _), runOn_flatten]
    rfl

/-! ## A line that is joined to the next -/

/-- What a lookup learns from a row. -/
def Row.says (row : Row) : CStr × Status := (row.domain, row.entry.status)

/-- A comment, or a row whose domain is not in its last column. -/
def Closed (line : List Char) : Prop :=
  line.head? = some '#' ∨ ∃ status domain rest : CStr,
    utf8 line = status ++ tab :: (domain ++ tab :: rest) ∧
      status ≠ [] ∧ domain ≠ [] ∧ tab ∉ status ∧ tab ∉ domain

/-- The first two columns of a row are read before the others. -/
theorem parseRow_pair (now : UInt32) {status domain : CStr} (hstatus : status ≠ [])
    (hdomain : domain ≠ []) (hstatustab : tab ∉ status) (hdomaintab : tab ∉ domain) (rest : CStr) :
    (parseRow now (status ++ tab :: (domain ++ tab :: rest))).map Row.says =
      some (domain, parseStatus (status.headD 0)) := by
  rw [parseRow]
  rw [strtok_tab hstatus hstatustab]
  dsimp only
  rw [strtok_tab hdomain hdomaintab]
  rfl

/-- A string that is cut at its first NUL, with something behind it. -/
theorem asCStr_append (f g : CStr) :
    asCStr (f ++ g) = asCStr f ∨ asCStr f = f ∧ asCStr (f ++ g) = f ++ asCStr g := by
  have happend := @List.takeWhile_append _ (fun c : UInt8 => decide (c ≠ 0)) f g
  split at happend
  · next hlength =>
    exact Or.inr ⟨(List.takeWhile_prefix _).eq_of_length hlength, happend⟩
  · exact Or.inl happend

/-- **What is joined to a closed line is lost**, and the line says what it said. -/
theorem textRows_joined (now : UInt32) {line back : List Char} (hclosed : Closed line)
    (hline : '\n' ∉ line) (hback : '\n' ∉ back.dropLast)
    (hfits : (utf8 (line ++ back)).length < lineBufSize - 1) :
    (textRows now (line ++ back)).map Row.says = (textRows now line).map Row.says := by
  have hne : utf8 line ≠ [] := by
    rcases hclosed with hcomment | ⟨status, domain, rest, hbytes, -⟩
    · refine utf8_ne_nil fun hnil => ?_
      rw [hnil] at hcomment
      cases hcomment
    · rw [hbytes]
      simp
  have hinner : '\n' ∉ (line ++ back).dropLast := by
    rcases List.eq_nil_or_concat back with rfl | ⟨front, c, rfl⟩
    · rw [List.append_nil]
      exact fun h => hline (List.mem_of_mem_dropLast h)
    · rw [List.concat_eq_append] at hback ⊢
      rw [List.dropLast_concat] at hback
      rw [← List.append_assoc, List.dropLast_concat, List.mem_append, not_or]
      exact ⟨hline, hback⟩
  have hwhole := newline_notMem_dropLast_utf8 hinner
  have hpart := newline_notMem_dropLast_utf8 fun h => hline (List.mem_of_mem_dropLast h)
  rw [utf8_append, List.length_append] at hfits
  rw [utf8_append] at hwhole
  have hjoined := linesRead_short (List.append_ne_nil_of_left_ne_nil hne (utf8 back)) hwhole
    (by rwa [List.length_append])
  have halone := linesRead_short hne hpart (by omega)
  -- the two texts begin alike
  have hhead : (asCStr (utf8 line ++ utf8 back)).head? = (asCStr (utf8 line)).head? := by
    rcases asCStr_append (utf8 line) (utf8 back) with hsame | ⟨hcut, hlonger⟩
    · rw [hsame]
    · rw [hlonger, hcut, List.head?_append_of_ne_nil _ hne]
  rw [hhead] at hjoined
  rw [textRows, textRows]
  rw [utf8_append, rowsOf_eq_filterMap, rowsOf_eq_filterMap, hjoined, halone]
  split
  · rfl
  · next hread =>
    obtain ⟨status, domain, rest, hbytes, hstatus, hdomain, hstatustab, hdomaintab⟩ :=
      hclosed.resolve_left fun hcomment => by
        obtain ⟨tail, rfl⟩ := List.head?_eq_some_iff.mp hcomment
        exact hread (Or.inl rfl)
    have hparse : (parseRow now (asCStr (utf8 line ++ utf8 back))).map Row.says =
        (parseRow now (asCStr (utf8 line))).map Row.says := by
      rcases asCStr_append (utf8 line) (utf8 back) with hsame | ⟨hcut, hlonger⟩
      · rw [hsame]
      · rw [hlonger, hcut, hbytes]
        simp only [List.append_assoc, List.cons_append]
        rw [parseRow_pair now hstatus hdomain hstatustab hdomaintab,
          parseRow_pair now hstatus hdomain hstatustab hdomaintab]
    have hsingle : ∀ text : CStr, (([text].filterMap (parseRow now)).map Row.says) =
        ((parseRow now text).map Row.says).toList := by
      intro text
      cases h : parseRow now text with
      | none => rw [List.filterMap_cons_none h]; rfl
      | some row => rw [List.filterMap_cons_some h]; rfl
    rw [hsingle, hsingle, hparse]

/-! ## Survivors -/

/-- A line that survives: the last one filed under a domain, or a rule for an ancestor. -/
inductive Survivor where
  | own (domain : List Char)
  | rule (ancestor : List Char) (timestamp : Int)
  deriving DecidableEq, Repr

/-- The ancestor a rule is for. -/
def Survivor.ruled : Survivor → Option (List Char)
  | .own _ => none
  | .rule ancestor _ => some ancestor

section Defs

variable (py : Python) (now : UInt32) (lines : List (List Char)) (choices : List Choice)

/-- The status in the row of a line, if it has one. -/
def lineStatus (line : List Char) : Option Status :=
  (textRows now line).head?.map (·.entry.status)

/-- What is loaded from the lines, in their order. -/
def filedEntries : List (List Char × Status) :=
  lines.filterMap fun line => (domainKey py line).bind fun domain =>
    (lineStatus now line).map fun st => (domain, st)

/-- The status in the last row of a domain. -/
def domainStatus (domain : List Char) : Option Status :=
  lastEntry (filedEntries py now lines) domain

/-- The status in the last line of a domain. -/
def lastLineStatus (domain : List Char) : Option Status :=
  lineStatus now (lastLine py lines domain)

/-- The groups and what the user makes of them. -/
def groupChoices : List (List Char × Choice) := (groupedAncestors py lines).zip choices

/-- What survives of a group. -/
def groupSurvivors (g : List Char × Choice) : List Survivor :=
  match g.2 with
  | .collapse timestamp => [.rule g.1 timestamp]
  | .keep => (groupMembers py lines g.1).map .own

/-- What survives, in the order in which it is written. -/
def survivors : List Survivor :=
  (ungroupedDomains py lines).map .own ++
    (groupChoices py lines choices).flatMap (groupSurvivors py lines)

/-- The largest `ttl` of the members of a group. -/
def ruleTtl (ancestor : List Char) : Nat :=
  (((groupMembers py lines ancestor).map fun domain =>
    (ttlColumn py (lastLine py lines domain)).join).filterMap fun ttl =>
      ttl.filter (· ≠ 0)).max?.getD 60

/-- The columns of the rule for an ancestor. -/
def ruleColumns (ancestor : List Char) (timestamp : Int) : BlockLine :=
  ⟨ancestor, 'S', timestamp, ruleTtl py lines ancestor, "consolidated lineage rollup".toList⟩

/-- The line that survives. -/
def Survivor.text : Survivor → List Char
  | .own domain => lastLine py lines domain
  | .rule ancestor timestamp => (ruleColumns py lines ancestor timestamp).text

/-- What is loaded from it. -/
def Survivor.entry : Survivor → Option (List Char × Status)
  | .own domain => (lastLineStatus py now lines domain).map fun st => (domain, st)
  | .rule ancestor _ => some (ancestor, .blocked)

/-- What is left of some lines: a line is lost if the one before it has no end. -/
def unjoined : List Survivor → List Survivor
  | [] => []
  | s :: ss =>
    s :: if (s.text py lines).getLast? = some '\n' then unjoined ss else (unjoined ss).tail

/-- What survives and is not joined to a line before it. -/
def spared : List Survivor := unjoined py lines (survivors py lines choices)

/-- The domain's own last line is spared. -/
def KeepsLine (domain : List Char) : Prop := .own domain ∈ spared py lines choices

/-- There is a rule for the domain, and it is spared. -/
def HasRule (domain : List Char) : Prop :=
  domain ∈ (spared py lines choices).filterMap Survivor.ruled

instance (domain : List Char) : Decidable (KeepsLine py lines choices domain) :=
  inferInstanceAs (Decidable (_ ∈ _))

instance (domain : List Char) : Decidable (HasRule py lines choices domain) :=
  inferInstanceAs (Decidable (_ ∈ _))

/-- The status a domain is left with: of its own last line or of a rule for it. The rule comes
behind the line of a domain in no group, and before that of a member of a group that is kept. -/
def statusLeft (domain : List Char) : Option Status :=
  let own := if KeepsLine py lines choices domain then lastLineStatus py now lines domain else none
  let rule := if HasRule py lines choices domain then some .blocked else none
  if domain ∈ ungroupedDomains py lines then rule.or own else own.or rule

/-- The domains filed and their ancestors. -/
def names : List (List Char) :=
  filedDomains py lines ++ (filedDomains py lines).flatMap ancestorsOf

end Defs

/-- A file of lines with one row each, filed under its domain, or with none; no two names that
are one domain; rules that fit a line; and a last line without an end, if it is filed, that says
the same whatever is joined to it. -/
structure Tidy (py : Python) (now : UInt32) (file : CStr) (choices : List Choice) : Prop where
  text : utf8 (fileLines py file).flatten = file
  unfiled : ∀ line ∈ fileLines py file, domainKey py line = none → textRows now line = []
  filed : ∀ line ∈ fileLines py file, ∀ domain, domainKey py line = some domain →
    textRows now line = [] ∨
      ∃ row, textRows now line = [row] ∧ row.Loaded ∧ normalise row.domain = pathOf domain
  distinct : ∀ a ∈ names py (fileLines py file), ∀ b ∈ names py (fileLines py file),
    pathOf a = pathOf b → a = b
  rules : ∀ a t, (a, .collapse t) ∈ groupChoices py (fileLines py file) choices →
    (ruleColumns py (fileLines py file) a t).Plain
  closed : ∀ line ∈ fileLines py file, (domainKey py line).isSome → line.getLast? ≠ some '\n' →
    Closed line
  fits : ∀ line ∈ fileLines py file, (domainKey py line).isSome → line.getLast? ≠ some '\n' →
    ∀ joined ∈ runOn (survivingLines py (fileLines py file) choices), line <+: joined →
      (utf8 joined).length < lineBufSize - 1

variable {py : Python} {now : UInt32} {lines : List (List Char)} {choices : List Choice}

/-! ## Groups -/

/-- The ancestors with a group, the longest first. -/
theorem pairwise_groupedAncestors :
    (groupedAncestors py lines).Pairwise fun a b => b.length ≤ a.length := by
  exact (pairwise_longestFirst _).filter _

/-- A member is longer than the ancestor it ends with. -/
theorem length_lt_of_mem_groupMembers {d a : List Char} (h : d ∈ groupMembers py lines a) :
    a.length < d.length := by
  have hle := (suffix_of_mem_ancestorsOf (mem_share.mp h).2.1).length_le
  exact hle

/-- The groups come with the longest ancestors first. -/
theorem pairwise_groupChoices :
    (groupChoices py lines choices).Pairwise fun g g' => g'.1.length ≤ g.1.length := by
  have hzip : ∀ (as : List (List Char)) (cs : List Choice),
      as.Pairwise (fun a b => b.length ≤ a.length) →
        (as.zip cs).Pairwise fun g g' => g'.1.length ≤ g.1.length := by
    intro as
    induction as with
    | nil => exact fun cs _ => List.Pairwise.nil
    | cons a as ih =>
      intro cs h
      obtain ⟨hfirst, hrest⟩ := List.pairwise_cons.mp h
      cases cs with
      | nil => exact List.Pairwise.nil
      | cons c cs =>
        exact List.pairwise_cons.mpr ⟨fun g hg => hfirst g.1 (List.of_mem_zip hg).1, ih cs hrest⟩
  exact hzip _ _ pairwise_groupedAncestors

theorem filed_of_ungrouped {d : List Char} (h : d ∈ ungroupedDomains py lines) :
    d ∈ filedDomains py lines := Dict.mem_firsts.mp (List.mem_filter.mp h).1

/-- A domain in a group is not in none. -/
theorem not_ungrouped_of_member {d a : List Char} (ha : a ∈ groupedAncestors py lines)
    (hd : d ∈ groupMembers py lines a) : d ∉ ungroupedDomains py lines := by
  intro hfree
  have hsmall := of_decide_eq_true (List.mem_filter.mp hfree).2
  exact (mem_no_group_iff (filed_of_ungrouped hfree)).mpr hsmall a ha hd

theorem mem_groupSurvivors_own {g : List Char × Choice} {d : List Char} :
    .own d ∈ groupSurvivors py lines g ↔ g.2 = .keep ∧ d ∈ groupMembers py lines g.1 := by
  obtain ⟨a, choice⟩ := g
  cases choice <;> simp [groupSurvivors]

theorem mem_groupSurvivors_rule {g : List Char × Choice} {a : List Char} {t : Int} :
    .rule a t ∈ groupSurvivors py lines g ↔ g = (a, .collapse t) := by
  obtain ⟨b, choice⟩ := g
  cases choice <;> simp [groupSurvivors, eq_comm]

/-- A domain's own line survives if the domain is in no group or in one that is kept. -/
theorem mem_survivors_own {d : List Char} :
    .own d ∈ survivors py lines choices ↔
      d ∈ ungroupedDomains py lines ∨
        ∃ g ∈ groupChoices py lines choices, g.2 = .keep ∧ d ∈ groupMembers py lines g.1 := by
  simp only [survivors, List.mem_append, List.mem_map, Survivor.own.injEq, exists_eq_right,
    List.mem_flatMap, mem_groupSurvivors_own]

/-- There are rules for the ancestors of the groups that are not kept. -/
theorem mem_survivors_rule {a : List Char} {t : Int} :
    .rule a t ∈ survivors py lines choices ↔ (a, .collapse t) ∈ groupChoices py lines choices := by
  simp [survivors, mem_groupSurvivors_rule]

/-- A domain's line survives, or there is a rule above it. -/
theorem own_or_rule (hlength : choices.length = (groupedAncestors py lines).length)
    {d : List Char} (hd : d ∈ filedDomains py lines) :
    .own d ∈ survivors py lines choices ∨
      ∃ a t, .rule a t ∈ survivors py lines choices ∧ d ∈ groupMembers py lines a := by
  by_cases hfree : ∀ a ∈ groupedAncestors py lines, d ∉ groupMembers py lines a
  · have hsmall := (mem_no_group_iff hd).mp hfree
    exact Or.inl (mem_survivors_own.mpr (Or.inl
      (List.mem_filter.mpr ⟨Dict.mem_firsts.mpr hd, decide_eq_true hsmall⟩)))
  · simp only [not_forall, not_not] at hfree
    obtain ⟨a, ha, hmem⟩ := hfree
    have hasked : a ∈ (groupChoices py lines choices).map Prod.fst := by
      show a ∈ ((groupedAncestors py lines).zip choices).map Prod.fst
      rwa [List.map_fst_zip hlength.ge]
    obtain ⟨⟨a, choice⟩, hg, rfl⟩ := List.mem_map.mp hasked
    cases choice with
    | keep => exact Or.inl (mem_survivors_own.mpr (Or.inr ⟨_, hg, rfl, hmem⟩))
    | collapse t => exact Or.inr ⟨a, t, mem_survivors_rule.mpr hg, hmem⟩

/-! ## The order of the lines -/

/-- A rule for a domain stands behind its own line only if the domain is in no group, and before
it only if it is in one. -/
def InPlace (py : Python) (lines : List (List Char)) (s s' : Survivor) : Prop :=
  ∀ d t, (s = .own d → s' = .rule d t → d ∈ ungroupedDomains py lines) ∧
    (s = .rule d t → s' = .own d → d ∉ ungroupedDomains py lines)

theorem inPlace_own {a b : List Char} : InPlace py lines (.own a) (.own b) := by
  intro d t
  constructor
  · intro _ h
    cases h
  · intro h
    cases h

/-- **The survivors are in order.** -/
theorem pairwise_survivors : (survivors py lines choices).Pairwise (InPlace py lines) := by
  rw [survivors, List.pairwise_append]
  refine ⟨?_, ?_, ?_⟩
  · exact List.pairwise_map.mpr (List.pairwise_of_forall fun _ _ => inPlace_own)
  · refine List.pairwise_flatMap.mpr ⟨fun g _ => ?_, ?_⟩
    · obtain ⟨a, choice⟩ := g
      cases choice with
      | collapse t => exact List.pairwise_singleton _ _
      | keep => exact List.pairwise_map.mpr (List.pairwise_of_forall fun _ _ => inPlace_own)
    · refine pairwise_groupChoices.imp_of_mem fun {g g'} _ hg' hlonger s hs s' hs' d t => ?_
      constructor
      · -- a rule for a member is longer, so it has come before
        rintro rfl rfl
        obtain rfl := mem_groupSurvivors_rule.mp hs'
        have hmember := (mem_groupSurvivors_own.mp hs).2
        exact absurd hlonger (Nat.not_le.mpr (length_lt_of_mem_groupMembers hmember))
      · rintro rfl rfl
        exact not_ungrouped_of_member (List.of_mem_zip hg').1 (mem_groupSurvivors_own.mp hs').2
  · intro s hs s' hs' d t
    obtain ⟨d', hfree, rfl⟩ := List.mem_map.mp hs
    refine ⟨fun heq _ => Survivor.own.inj heq ▸ hfree, fun heq => ?_⟩
    cases heq

theorem unjoined_sublist (ss : List Survivor) : (unjoined py lines ss).Sublist ss := by
  induction ss with
  | nil => exact List.Sublist.refl _
  | cons s ss ih =>
    rw [unjoined]
    split
    · exact ih.cons_cons s
    · exact ((List.tail_sublist _).trans ih).cons_cons s

theorem mem_survivors_of_spared {s : Survivor} (h : s ∈ spared py lines choices) :
    s ∈ survivors py lines choices := (unjoined_sublist _).subset h

/-- Nothing is joined where every line has its end. -/
theorem unjoined_eq_self {ss : List Survivor}
    (h : ∀ s ∈ ss, (s.text py lines).getLast? = some '\n') : unjoined py lines ss = ss := by
  induction ss with
  | nil => rfl
  | cons s ss ih =>
    rw [unjoined, if_pos (h s List.mem_cons_self),
      ih fun other hother => h other (List.mem_cons_of_mem _ hother)]

/-! ## What becomes of a domain -/

/-- What a line says of a domain. -/
theorem lastEntry_own (d' d : List Char) :
    lastEntry ((Survivor.own d').entry py now lines).toList d =
      if d' = d then lastLineStatus py now lines d else none := by
  rw [Survivor.entry]
  by_cases hd : d' = d
  · subst hd
    rw [if_pos rfl]
    cases lastLineStatus py now lines d' with
    | none => rfl
    | some st => exact (lastEntry_singleton _ _).trans (if_pos rfl)
  · rw [if_neg hd]
    cases lastLineStatus py now lines d' with
    | none => rfl
    | some st => exact (lastEntry_singleton _ _).trans (if_neg hd)

theorem lastEntry_rule (a : List Char) (t : Int) (d : List Char) :
    lastEntry ((Survivor.rule a t).entry py now lines).toList d =
      if a = d then some .blocked else none := lastEntry_singleton _ d

theorem mem_ruled {ss : List Survivor} {a : List Char} :
    a ∈ ss.filterMap Survivor.ruled ↔ ∃ t, .rule a t ∈ ss := by
  rw [List.mem_filterMap]
  constructor
  · rintro ⟨s, hs, hruled⟩
    cases s with
    | own d => cases hruled
    | rule b t => exact ⟨t, Option.some.inj hruled ▸ hs⟩
  · rintro ⟨t, hs⟩
    exact ⟨_, hs, rfl⟩

/-- **What lines in order say of a domain.** -/
theorem lastEntry_inPlace {ss : List Survivor} (h : ss.Pairwise (InPlace py lines))
    (d : List Char) :
    lastEntry (ss.filterMap (Survivor.entry py now lines)) d =
      if d ∈ ungroupedDomains py lines then
        (if d ∈ ss.filterMap Survivor.ruled then some .blocked else none).or
          (if .own d ∈ ss then lastLineStatus py now lines d else none)
      else
        (if .own d ∈ ss then lastLineStatus py now lines d else none).or
          (if d ∈ ss.filterMap Survivor.ruled then some .blocked else none) := by
  induction ss with
  | nil => simp [lastEntry_nil]
  | cons s ss ih =>
    obtain ⟨hfirst, hrest⟩ := List.pairwise_cons.mp h
    have hsplit : (s :: ss).filterMap (Survivor.entry py now lines) =
        (s.entry py now lines).toList ++ ss.filterMap (Survivor.entry py now lines) := by
      cases hentry : s.entry py now lines <;> simp [hentry]
    rw [hsplit, lastEntry_append, ih hrest]
    cases s with
    | own d' =>
      have hrules : (Survivor.own d' :: ss).filterMap Survivor.ruled =
          ss.filterMap Survivor.ruled := List.filterMap_cons_none rfl
      rw [lastEntry_own, hrules]
      by_cases hd : d' = d
      · subst hd
        rw [if_pos rfl, if_pos List.mem_cons_self]
        split
        · rw [Option.or_assoc]
          congr 1
          split <;> simp
        · next hgrouped =>
          -- no rule for a member behind its own line
          have hnone : d' ∉ ss.filterMap Survivor.ruled := fun hmem =>
            (mem_ruled.mp hmem).elim fun t hrule => hgrouped ((hfirst _ hrule d' t).1 rfl rfl)
          rw [if_neg hnone, Option.or_none, Option.or_none]
          split <;> simp
      · have hother : Survivor.own d ∈ Survivor.own d' :: ss ↔ Survivor.own d ∈ ss := by
          simp [Ne.symm hd]
        rw [if_neg hd, Option.or_none, if_congr hother rfl rfl]
    | rule a t =>
      have howns : Survivor.own d ∈ Survivor.rule a t :: ss ↔ Survivor.own d ∈ ss := by
        simp
      have hrules : d ∈ (Survivor.rule a t :: ss).filterMap Survivor.ruled ↔
          a = d ∨ d ∈ ss.filterMap Survivor.ruled := by
        rw [← List.mem_cons.trans (or_congr_left eq_comm)]
        exact Iff.rfl
      rw [lastEntry_rule, if_congr howns rfl rfl, if_congr hrules rfl rfl]
      by_cases ha : a = d
      · subst ha
        rw [if_pos rfl, if_pos (Or.inl rfl)]
        split
        · next hfree =>
          -- the own line of a domain in no group is not behind its rule
          have hnone : Survivor.own a ∉ ss := fun hown => (hfirst _ hown a t).2 rfl rfl hfree
          rw [if_neg hnone, Option.or_none, Option.or_none]
          split <;> rfl
        · rw [Option.or_assoc]
          congr 1
          split <;> rfl
      · rw [if_neg ha, Option.or_none, if_congr (or_iff_right ha) rfl rfl]

/-- **What becomes of a domain.** -/
theorem lastEntry_spared (d : List Char) :
    lastEntry ((spared py lines choices).filterMap (Survivor.entry py now lines)) d =
      statusLeft py now lines choices d :=
  lastEntry_inPlace (pairwise_survivors.sublist (unjoined_sublist _)) d

/-! ## Rows and entries -/

/-- The row is of the entry's domain and has its status. -/
def Spells (row : Row) (x : List Char × Status) : Prop :=
  row.Loaded ∧ normalise row.domain = pathOf x.1 ∧ row.entry.status = x.2

/-- The line has one row, the entry's, or none if there is no entry. -/
def Holds (now : UInt32) (line : List Char) (entry : Option (List Char × Status)) : Prop :=
  List.Forall₂ Spells (textRows now line) entry.toList

theorem lastStatus_cons (row : Row) (rows : List Row) (p : List Label) :
    lastStatus (row :: rows) p =
      (lastStatus rows p).or
        (if row.Loaded ∧ normalise row.domain = p then some row.entry.status else none) := by
  rw [← List.singleton_append, lastStatus_append]
  congr 1
  rw [lastStatus, loadLog_cons]
  by_cases hloaded : row.Loaded
  · have hentry : lastInsert [(normalise row.domain, row.entry)] p =
        if normalise row.domain = p then some row.entry else none := lastEntry_singleton _ p
    rw [if_pos hloaded, show loadLog [] = [] from rfl, List.append_nil, hentry]
    by_cases hp : normalise row.domain = p
    · rw [if_pos hp, if_pos ⟨hloaded, hp⟩]
      rfl
    · rw [if_neg hp, if_neg fun h => hp h.2]
      rfl
  · rw [if_neg hloaded, if_neg fun h => hloaded h.1]
    rfl

/-- What rows say is what their entries say. -/
theorem lastStatus_of_spells {rows : List Row} {xs : List (List Char × Status)}
    (h : List.Forall₂ Spells rows xs) (p : List Label) :
    lastStatus rows p = lastEntry (xs.map fun x => (pathOf x.1, x.2)) p := by
  induction h with
  | nil => rfl
  | cons hfirst _ ih =>
    obtain ⟨hloaded, hpath, hstatus⟩ := hfirst
    rw [lastStatus_cons, List.map_cons, lastEntry_cons, ih, hpath, hstatus]
    simp only [hloaded, true_and]

/-- Lines are loaded one by one. -/
theorem spells_of_holds {ι : Type} {entry : ι → Option (List Char × Status)}
    {ls : List (List Char)} {xs : List ι}
    (h : List.Forall₂ (fun line x => Holds now line (entry x)) ls xs) :
    List.Forall₂ Spells (ls.flatMap (textRows now)) (xs.filterMap entry) := by
  rw [List.filterMap_eq_flatMap_toList]
  exact List.rel_flatMap h fun _ _ => id

/-- Rows that say the same spell the same. -/
theorem spells_of_says {rows rows' : List Row} {xs : List (List Char × Status)}
    (hsame : rows'.map Row.says = rows.map Row.says) (h : List.Forall₂ Spells rows xs) :
    List.Forall₂ Spells rows' xs := by
  induction h generalizing rows' with
  | nil => rw [List.map_eq_nil_iff.mp hsame]; exact .nil
  | @cons row x rows xs hfirst _ ih =>
    obtain ⟨row', rest, rfl, hrow, hrest⟩ := List.map_eq_cons_iff.mp hsame
    obtain ⟨hdomain, hstatus⟩ := Prod.mk.inj hrow
    have hfirst' : Spells row' x := by
      rw [Spells, Row.Loaded, hdomain, hstatus]
      exact hfirst
    exact .cons hfirst' (ih hrest)

/-! ## Tidy files -/

/-- The lines of the new file: what is spared, with what is joined to it. -/
theorem runOn_survivors (ss : List Survivor) :
    List.Forall₂ (fun line s => ∃ back, line = s.text py lines ++ back ∧
        ((s.text py lines).getLast? = some '\n' → back = []))
      (runOn (ss.map (Survivor.text py lines))) (unjoined py lines ss) := by
  induction ss with
  | nil => exact .nil
  | cons s ss ih =>
    rw [List.map_cons, runOn, unjoined]
    generalize runOn (ss.map (Survivor.text py lines)) = joined, unjoined py lines ss = left at ih
    cases ih with
    | nil =>
      have hnone : (if (s.text py lines).getLast? = some '\n' then [] else
          ([] : List Survivor).tail) = [] := ite_self _
      rw [hnone]
      exact .cons ⟨[], (List.append_nil _).symm, fun _ => rfl⟩ .nil
    | @cons next s' rest ss' hnext hrest =>
      dsimp only
      split
      · exact .cons ⟨[], (List.append_nil _).symm, fun _ => rfl⟩ (.cons hnext hrest)
      · next hopen => exact .cons ⟨next, rfl, fun hended => absurd hended hopen⟩ hrest

/-- The rule for an ancestor, in columns. -/
theorem groupLines_collapse (a : List Char) (t : Int) :
    groupLines py lines a (.collapse t) = [(ruleColumns py lines a t).text] := by
  have httl : ∀ ttls, ttlField ttls =
      Nat.toDigits 10 ((ttls.filterMap fun ttl => ttl.filter (· ≠ 0)).max?.getD 60) := by
    intro ttls
    unfold ttlField
    cases (ttls.filterMap fun ttl => ttl.filter (· ≠ 0)).max? with
    | none => decide
    | some ttl => rfl
  have hflag : "\tS\t".toList = "\t".toList ++ (['S'] ++ "\t".toList) := by decide
  have hnote : "\tconsolidated lineage rollup\n".toList =
      "\t".toList ++ ("consolidated lineage rollup".toList ++ "\n".toList) := by decide
  unfold groupLines ruleLine ruleColumns BlockLine.text ruleTtl
  dsimp only
  rw [httl, hflag, hnote]
  simp only [List.append_assoc]

/-- **The lines that survive are the survivors'.** -/
theorem survivingLines_eq :
    survivingLines py lines choices =
      (survivors py lines choices).map (Survivor.text py lines) := by
  have hgroup : ∀ g : List Char × Choice, groupLines py lines g.1 g.2 =
      (groupSurvivors py lines g).map (Survivor.text py lines) := by
    rintro ⟨a, choice⟩
    cases choice with
    | collapse t => exact groupLines_collapse a t
    | keep =>
      show (groupMembers py lines a).map (lastLine py lines) =
        ((groupMembers py lines a).map Survivor.own).map (Survivor.text py lines)
      rw [List.map_map]
      rfl
  rw [survivingLines, survivors]
  rw [List.map_append, List.map_map, List.map_flatMap, ← List.map_uncurry_zip_eq_zipWith,
    ← List.flatMap_def]
  exact congrArg _ (List.flatMap_congr fun g _ => hgroup g)

theorem newline_not_mem_runOn {ls : List (List Char)} (h : ∀ line ∈ ls, '\n' ∉ line.dropLast) :
    ∀ joined ∈ runOn ls, '\n' ∉ joined.dropLast := by
  induction ls with
  | nil => exact fun joined hjoined => absurd hjoined List.not_mem_nil
  | cons line ls ih =>
    have hrest := ih fun other hother => h other (List.mem_cons_of_mem _ hother)
    have hline := h line List.mem_cons_self
    rw [runOn]
    split
    · exact List.forall_mem_singleton.mpr hline
    · next next rest heq =>
      rw [heq] at hrest
      obtain ⟨hnext, hlater⟩ := List.forall_mem_cons.mp hrest
      split
      · exact List.forall_mem_cons.mpr ⟨hline, List.forall_mem_cons.mpr ⟨hnext, hlater⟩⟩
      · next hopen =>
        refine List.forall_mem_cons.mpr ⟨fun hmem => ?_, hlater⟩
        cases next with
        | nil => exact hline (by rwa [List.append_nil] at hmem)
        | cons c cs =>
          rw [List.dropLast_append_of_ne_nil (List.cons_ne_nil c cs), List.mem_append] at hmem
          exact hmem.elim (newline_not_mem_of_open hline hopen) hnext

namespace Tidy

variable {file : CStr}

/-- A line of the file is loaded as its entry. -/
theorem holds (h : Tidy py now file choices) {line : List Char} (hline : line ∈ fileLines py file)
    {d : List Char} (hd : domainKey py line = some d) :
    Holds now line ((lineStatus now line).map fun st => (d, st)) := by
  rw [Holds, lineStatus]
  rcases h.filed line hline d hd with hnone | ⟨row, hrows, hloaded, hpath⟩
  · rw [hnone]
    exact .nil
  · rw [hrows]
    exact .cons ⟨hloaded, hpath, rfl⟩ .nil

/-- The rows of the file. -/
theorem spells_file (h : Tidy py now file choices) :
    List.Forall₂ Spells (rowsOf now (some file)) (filedEntries py now (fileLines py file)) := by
  have hfile : rowsOf now (some file) = (fileLines py file).flatMap (textRows now) := by
    have hrows := textRows_flatten now (pyLines_ended (universalNewlines (py.decode file)))
    rw [← fileLines, textRows, h.text] at hrows
    exact hrows
  rw [hfile]
  refine spells_of_holds (List.forall₂_same.mpr fun line hline => ?_)
  cases hkey : domainKey py line with
  | none =>
    rw [Holds, h.unfiled line hline hkey]
    exact .nil
  | some d => exact h.holds hline hkey

theorem filed_of_own (hown : .own d ∈ survivors py lines choices) : d ∈ filedDomains py lines := by
  rcases mem_survivors_own.mp hown with hfree | ⟨g, -, -, hmem⟩
  · exact filed_of_ungrouped hfree
  · exact (mem_share.mp hmem).1

/-- No survivor has a newline but at its end. -/
theorem newline_not_mem_text (h : Tidy py now file choices) {s : Survivor}
    (hs : s ∈ survivors py (fileLines py file) choices) :
    '\n' ∉ (s.text py (fileLines py file)).dropLast := by
  cases s with
  | own d => exact newline_not_mem_dropLast _ _ (lastLine_filed (filed_of_own hs)).1
  | rule a t => exact (h.rules a t (mem_survivors_rule.mp hs)).legible.newline_not_mem

/-- A line of the new file is loaded as the entry of the survivor it begins with. -/
theorem holds_survivor (h : Tidy py now file choices) {s : Survivor} {line back : List Char}
    (hs : s ∈ survivors py (fileLines py file) choices)
    (hline : line ∈ runOn (survivingLines py (fileLines py file) choices))
    (heq : line = s.text py (fileLines py file) ++ back)
    (hback : (s.text py (fileLines py file)).getLast? = some '\n' → back = []) :
    Holds now line (s.entry py now (fileLines py file)) := by
  cases s with
  | rule a t =>
    have hplain := h.rules a t (mem_survivors_rule.mp hs)
    obtain ⟨e, hst, hrows⟩ := hplain.textRows now
    obtain rfl := hback (BlockLine.getLast?_text _)
    rw [heq, List.append_nil]
    have htext : (Survivor.rule a t).text py (fileLines py file) =
        (ruleColumns py (fileLines py file) a t).text := rfl
    rw [Holds, htext, hrows]
    exact .cons ⟨hplain.insertable, rfl, hst⟩ .nil
  | own d =>
    obtain ⟨hmem, hkey⟩ := lastLine_filed (filed_of_own hs)
    have halone := h.holds hmem hkey
    by_cases hended : (lastLine py (fileLines py file) d).getLast? = some '\n'
    · obtain rfl := hback hended
      rw [heq, List.append_nil]
      exact halone
    · -- the last line of the file, and what is joined to it is lost
      have hfiled : (domainKey py (lastLine py (fileLines py file) d)).isSome := hkey ▸ rfl
      have hclosed := h.closed _ hmem hfiled hended
      have hfits := h.fits _ hmem hfiled hended line hline ⟨back, heq.symm⟩
      have hinner := newline_not_mem_of_open (h.newline_not_mem_text hs) hended
      have hjoined := newline_not_mem_runOn (fun other hother => ?_) line hline
      · rw [heq] at hfits hjoined ⊢
        refine spells_of_says (textRows_joined now hclosed hinner ?_ hfits) halone
        cases back with
        | nil => exact List.not_mem_nil
        | cons c cs =>
          rw [List.dropLast_append_of_ne_nil (List.cons_ne_nil c cs), List.mem_append] at hjoined
          exact fun hmem => hjoined (Or.inr hmem)
      · rw [survivingLines_eq] at hother
        obtain ⟨s', hs', rfl⟩ := List.mem_map.mp hother
        exact h.newline_not_mem_text hs'

/-- The rows of the lines that survive. -/
theorem spells_survivors (h : Tidy py now file choices) :
    List.Forall₂ Spells (survivingRows py now (fileLines py file) choices)
      ((spared py (fileLines py file) choices).filterMap
        (Survivor.entry py now (fileLines py file))) := by
  refine spells_of_holds ?_
  have hlines := @runOn_survivors py (fileLines py file) (survivors py (fileLines py file) choices)
  rw [← survivingLines_eq] at hlines
  obtain ⟨hlength, hpairs⟩ := List.forall₂_iff_zip.mp hlines
  refine List.forall₂_iff_zip.mpr ⟨hlength, fun {line s} hmem => ?_⟩
  obtain ⟨back, heq, hback⟩ := hpairs hmem
  obtain ⟨hline, hs⟩ := List.of_mem_zip hmem
  exact h.holds_survivor (mem_survivors_of_spared hs) hline heq hback

theorem mem_names_of_filed {d : List Char} (hd : d ∈ filedDomains py lines) : d ∈ names py lines :=
  List.mem_append_left _ hd

theorem filed_of_mem_filedEntries {x : List Char × Status} (hx : x ∈ filedEntries py now lines) :
    x.1 ∈ filedDomains py lines := by
  obtain ⟨line, hline, hentry⟩ := List.mem_filterMap.mp hx
  obtain ⟨d, hd, hst⟩ := Option.bind_eq_some_iff.mp hentry
  obtain ⟨st, -, rfl⟩ := Option.map_eq_some_iff.mp hst
  exact mem_filedDomains.mpr ⟨line, hline, hd⟩

/-- What is loaded from the survivors is loaded for names. -/
theorem mem_names_of_entry {x : List Char × Status}
    (hx : x ∈ (spared py lines choices).filterMap (Survivor.entry py now lines)) :
    x.1 ∈ names py lines := by
  obtain ⟨s, hspared, hentry⟩ := List.mem_filterMap.mp hx
  have hs := mem_survivors_of_spared hspared
  cases s with
  | own d =>
    obtain ⟨st, -, rfl⟩ := Option.map_eq_some_iff.mp hentry
    exact mem_names_of_filed (filed_of_own hs)
  | rule a t =>
    obtain rfl := Option.some.inj hentry
    exact List.mem_append_right _
      (mem_groupedAncestors.mp (List.of_mem_zip (mem_survivors_rule.mp hs)).1).1

theorem mem_names_of_statusLeft {n : List Char} {st : Status}
    (h : statusLeft py now lines choices n = some st) : n ∈ names py lines := by
  rw [← lastEntry_spared] at h
  exact mem_names_of_entry (mem_of_lastEntry h)

/-- The last row of a name in the file. -/
theorem lastStatus_file (h : Tidy py now file choices) {n : List Char}
    (hn : n ∈ names py (fileLines py file)) :
    lastStatus (rowsOf now (some file)) (pathOf n) =
      domainStatus py now (fileLines py file) n := by
  rw [lastStatus_of_spells h.spells_file, lastEntry_map pathOf]
  · rfl
  · exact fun x hx => h.distinct _ (mem_names_of_filed (filed_of_mem_filedEntries hx)) n hn

/-- The last row of a name in the new file. -/
theorem lastStatus_survivors (h : Tidy py now file choices) {n : List Char}
    (hn : n ∈ names py (fileLines py file)) :
    lastStatus (survivingRows py now (fileLines py file) choices) (pathOf n) =
      statusLeft py now (fileLines py file) choices n := by
  rw [lastStatus_of_spells h.spells_survivors, lastEntry_map pathOf, lastEntry_spared]
  exact fun x hx => h.distinct _ (mem_names_of_entry hx) n hn

/-- A path with a row in the file is a domain's. -/
theorem exists_filed (h : Tidy py now file choices) {p : List Label} {st : Status}
    (hlast : lastStatus (rowsOf now (some file)) p = some st) :
    ∃ d ∈ filedDomains py (fileLines py file), pathOf d = p ∧
      domainStatus py now (fileLines py file) d = some st := by
  rw [lastStatus_of_spells h.spells_file] at hlast
  obtain ⟨x, hx, heq⟩ := List.mem_map.mp (mem_of_lastEntry hlast)
  have hfiled := filed_of_mem_filedEntries hx
  obtain ⟨rfl, -⟩ := Prod.mk.inj heq
  rw [← lastStatus_of_spells h.spells_file, h.lastStatus_file (mem_names_of_filed hfiled)] at hlast
  exact ⟨x.1, hfiled, rfl, hlast⟩

/-- A path with a row in the new file is a name's. -/
theorem exists_name (h : Tidy py now file choices) {p : List Label} {st : Status}
    (hlast : lastStatus (survivingRows py now (fileLines py file) choices) p = some st) :
    ∃ n, pathOf n = p ∧ statusLeft py now (fileLines py file) choices n = some st := by
  rw [lastStatus_of_spells h.spells_survivors] at hlast
  obtain ⟨x, hx, heq⟩ := List.mem_map.mp (mem_of_lastEntry hlast)
  obtain ⟨rfl, -⟩ := Prod.mk.inj heq
  rw [← lastStatus_of_spells h.spells_survivors,
    h.lastStatus_survivors (mem_names_of_entry hx)] at hlast
  exact ⟨x.1, rfl, hlast⟩

end Tidy

end Nyet
