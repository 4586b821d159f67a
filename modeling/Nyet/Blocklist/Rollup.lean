import Nyet.Blocklist.Text
import Nyet.Lib.Dict
import Nyet.Lib.Grouping

/-!
# Rolling subdomains up (`clean_blocklist.py`)

`optimize_blocklist` files the lines of a file under their domain columns, groups the
domains by their ancestors, longest ancestor first, and asks for each group of three or
more whether one rule for the ancestor is to replace it. `optimizeBlocklist_eq` says what it
writes without its dictionaries and loops: the last line of every domain that is in no group,
and then, group by group, the rule or the last lines of the members.
-/

namespace Nyet

open Lib

/-! ## The script -/

/-- `PROTECTED_DOMAINS` -/
def protectedDomains : List (List Char) :=
  ["google.com", "amazonaws.com", "cloudfront.net", "mozilla.org", "mozilla.net", "gstatic.com",
    "apple.com", "microsoft.com", "github.com"].map String.toList

/-- `get_ancestor_candidates` -/
def getAncestorCandidates (domain : List Char) : List (List Char) :=
  let parts := domain.splitOn '.'
  if parts.length ≤ 2 then []
  else (List.range' 1 (parts.length - 2)).map fun i => ['.'].intercalate (parts.drop i)

/-- The ancestors a domain is listed under. -/
def ancestorsOf (domain : List Char) : List (List Char) :=
  (getAncestorCandidates domain).filter (· ∉ protectedDomains)

/-- What a line puts into `ttl_map`; the outer `none` is a `ValueError`. -/
def ttlColumn (py : Python) (line : List Char) : Option (Option Nat) :=
  let parts := (pyStrip line).splitOn '\t'
  let column := parts.getD 6 []
  if 8 ≤ parts.length ∧ pyIsDigit py.otherDigit column then (py.int column).map some
  else some none

/-- The dictionaries of `optimize_blocklist`. -/
structure Collected where
  activeEntries : Dict (List Char) (List Char)
  ancestorMap : Dict (List Char) (List (List Char))
  linesMap : Dict (List Char) (List Char)
  ttlMap : Dict (List Char) (Option Nat)

/-- The body of the loop over the lines. -/
def collectLine (py : Python) (c : Collected) (line : List Char) : Option Collected :=
  match domainKey py line with
  | none => some c
  | some domain =>
    (ttlColumn py line).map fun ttl =>
      { activeEntries := c.activeEntries.set domain line
        ancestorMap := (ancestorsOf domain).foldl
          (fun m ancestor => m.set ancestor ((m.get? ancestor).getD [] ++ [domain])) c.ancestorMap
        linesMap := c.linesMap.set domain line
        ttlMap := c.ttlMap.set domain ttl }

/-- The loop over the lines; `none` if it raises. -/
def collectLines (py : Python) (c : Collected) : List (List Char) → Option Collected
  | [] => some c
  | line :: lines => (collectLine py c line).bind fun c => collectLines py c lines

/-- `active_entries` and `rollups` while the ancestors are gone through. -/
structure Rolling where
  activeEntries : Dict (List Char) (List Char)
  rollups : Dict (List Char) (List (List Char))

/-- The body of the loop over the ancestors. -/
def rollupStep (c : Collected) (s : Rolling) (ancestor : List Char) : Rolling :=
  let children := ((c.ancestorMap.get? ancestor).getD []).filter (· ∈ s.activeEntries.keys)
  if 3 ≤ children.length then
    { activeEntries := children.foldl Dict.pop s.activeEntries
      rollups := s.rollups.set ancestor children }
  else s

/-- The loop over the ancestors, in `sorted(ancestor_map.keys(), key=len, reverse=True)`. -/
def findRollups (c : Collected) : Rolling :=
  (c.ancestorMap.keys.mergeSort fun a b => b.length ≤ a.length).foldl (rollupStep c)
    ⟨c.activeEntries, []⟩

/-- What the user makes of a candidate. -/
inductive Choice where
  | collapse (timestamp : Int)
  | keep
  deriving DecidableEq, Repr

/-- The `while True` loop at the prompt, and the answers that are left; `none` if the input
ends. -/
def ask (py : Python) : List TypedAnswer → Option (Choice × List TypedAnswer)
  | [] => none
  | answer :: rest =>
    let word := py.lower (pyStrip answer.typed)
    if word = ['y'] ∨ word = ['y', 'e', 's'] then some (.collapse answer.time, rest)
    else if word = ['n'] ∨ word = ['n', 'o'] then some (.keep, rest)
    else ask py rest

/-- `ttl_field`: the largest `ttl` of a child, `None` and zero aside. -/
def ttlField (ttls : List (Option Nat)) : List Char :=
  match (ttls.filterMap fun ttl => ttl.filter (· ≠ 0)).max? with
  | none => ['6', '0']
  | some ttl => Nat.toDigits 10 ttl

/-- The rule for an ancestor. -/
def ruleLine (ancestor : List Char) (timestamp : Int) (ttl : List Char) : List Char :=
  let time := (toString timestamp).toList
  "B\t".toList ++ ancestor ++ "\tS\t".toList ++ time ++ "\t".toList ++ time ++ "\t1\t".toList ++
    ttl ++ "\tconsolidated lineage rollup\n".toList

/-- What a choice appends to `new_lines`. -/
def appended (c : Collected) (ancestor : List Char) (children : List (List Char)) :
    Choice → List (List Char)
  | .collapse timestamp =>
    [ruleLine ancestor timestamp (ttlField (children.map fun child => (c.ttlMap.get? child).join))]
  | .keep => children.filterMap fun child => (c.linesMap.get? child).filter (· ≠ [])

/-- The loop over the candidates. -/
def askAll (py : Python) (c : Collected) (newLines : List (List Char)) :
    Dict (List Char) (List (List Char)) → List TypedAnswer → Option (List (List Char))
  | [], _ => some newLines
  | (ancestor, children) :: rollups, answers =>
    match ask py answers with
    | none => none
    | some (choice, answers) =>
      askAll py c (newLines ++ appended c ancestor children choice) rollups answers

/-- The lines `optimize_blocklist` writes; `none` if it does not get that far. -/
def optimizeBlocklist (py : Python) (file : CStr) (answers : List TypedAnswer) :
    Option (List (List Char)) :=
  (collectLines py ⟨[], [], [], []⟩ (pyLines (universalNewlines (py.decode file)))).bind fun c =>
    let s := findRollups c
    if s.rollups = [] then none else askAll py c s.activeEntries.values s.rollups answers

/-- The file after `optimize_blocklist`. -/
def rolledUp (py : Python) (file : CStr) (answers : List TypedAnswer) : CStr :=
  match optimizeBlocklist py file answers with
  | none => file
  | some newLines => utf8 newLines.flatten

/-! ## What is written -/

section Spec

variable (py : Python) (lines : List (List Char))

/-- The domains the lines are filed under, one for each line. -/
def filedDomains : List (List Char) := lines.filterMap (domainKey py)

/-- The last line filed under a domain. -/
def lastLine (domain : List Char) : List Char :=
  (lines.reverse.find? fun line => domainKey py line = some domain).getD []

/-- The members of an ancestor's group: the domains under it, once for each line, that are under
no longer ancestor with a group of three. -/
def groupMembers (ancestor : List Char) : List (List Char) :=
  share (filedDomains py lines) ancestorsOf List.length 3 ancestor

/-- The ancestors with a group, the longest first and those of one length in the order of the
file. -/
def groupedAncestors : List (List Char) :=
  ((Dict.firsts ((filedDomains py lines).flatMap ancestorsOf)).mergeSort fun a b =>
    b.length ≤ a.length).filter fun ancestor => 3 ≤ (groupMembers py lines ancestor).length

/-- The domains in no group, in the order of the file. -/
def ungroupedDomains : List (List Char) :=
  (Dict.firsts (filedDomains py lines)).filter fun domain =>
    ∀ ancestor ∈ ancestorsOf domain, (groupMembers py lines ancestor).length < 3

/-- What stands for a group: a rule for the ancestor, or the last lines of the members. -/
def groupLines (ancestor : List Char) : Choice → List (List Char)
  | .collapse timestamp =>
    [ruleLine ancestor timestamp (ttlField ((groupMembers py lines ancestor).map fun domain =>
      (ttlColumn py (lastLine py lines domain)).join))]
  | .keep => (groupMembers py lines ancestor).map (lastLine py lines)

/-- The lines that survive: the last ones of the domains in no group, and what stands for each
group. -/
def survivingLines (choices : List Choice) : List (List Char) :=
  (ungroupedDomains py lines).map (lastLine py lines) ++
    (List.zipWith (groupLines py lines) (groupedAncestors py lines) choices).flatten

/-- The choices made at so many prompts; `none` if the input ends before. -/
def choicesOf (py : Python) : Nat → List TypedAnswer → Option (List Choice)
  | 0, _ => some []
  | n + 1, answers =>
    (ask py answers).bind fun p => (choicesOf py n p.2).map (p.1 :: ·)

/-- `int` raises on no line that is filed. -/
def TtlsReadable : Prop := ∀ line ∈ lines, (domainKey py line).isSome → (ttlColumn py line).isSome

instance : Decidable (TtlsReadable py lines) :=
  inferInstanceAs (Decidable (∀ _ ∈ _, _))

end Spec

/-! ## Ancestors -/

/-- What is left of a domain ends with what is left of it further on. -/
theorem suffix_ancestor {parts : List (List Char)} {i j : Nat} (hij : i < j)
    (hj : j < parts.length) :
    '.' :: ['.'].intercalate (parts.drop j) <:+ ['.'].intercalate (parts.drop i) := by
  have hcut : ∀ k, k + 1 < parts.length →
      '.' :: ['.'].intercalate (parts.drop (k + 1)) <:+ ['.'].intercalate (parts.drop k) := by
    intro k hk
    have hne : parts.drop (k + 1) ≠ [] :=
      List.ne_nil_of_length_pos (by rw [List.length_drop]; omega)
    rw [List.drop_eq_getElem_cons (i := k) (by omega), List.intercalate_cons_of_ne_nil hne,
      List.append_assoc, List.singleton_append]
    exact List.suffix_append _ _
  induction j, hij using Nat.le_induction with
  | base => exact hcut i hj
  | succ j hij ih =>
    have hnext := (hcut j hj).trans (List.suffix_cons '.' _)
    exact hnext.trans (ih (by omega))

/-- The ancestors of a domain have different lengths. -/
theorem pairwise_getAncestorCandidates (domain : List Char) :
    (getAncestorCandidates domain).Pairwise fun a b => b.length < a.length := by
  unfold getAncestorCandidates
  dsimp only
  split
  · exact List.Pairwise.nil
  · rw [List.pairwise_map]
    refine List.Pairwise.imp_of_mem ?_ List.pairwise_lt_range'
    intro i j _ hj hij
    have hrange := List.mem_range'_1.mp hj
    exact (suffix_ancestor hij (by omega)).length_le

/-- A domain ends with its ancestors. -/
theorem suffix_of_mem_ancestorsOf {domain ancestor : List Char} (h : ancestor ∈ ancestorsOf domain) :
    '.' :: ancestor <:+ domain := by
  have hcandidate := (List.mem_filter.mp h).1
  unfold getAncestorCandidates at hcandidate
  dsimp only at hcandidate
  split at hcandidate
  · cases hcandidate
  · obtain ⟨i, hi, rfl⟩ := List.mem_map.mp hcandidate
    have hrange := List.mem_range'_1.mp hi
    have hwhole := @suffix_ancestor (domain.splitOn '.') 0 i (by omega) (by omega)
    rwa [List.drop_zero, List.intercalate_splitOn] at hwhole

theorem pairwise_ancestorsOf (domain : List Char) :
    (ancestorsOf domain).Pairwise fun a b => b.length < a.length :=
  (pairwise_getAncestorCandidates domain).filter _

theorem nodup_ancestorsOf (domain : List Char) : (ancestorsOf domain).Nodup := by
  refine (pairwise_ancestorsOf domain).imp ?_
  rintro a b hlt rfl
  exact Nat.lt_irrefl _ hlt

theorem ancestorsOf_inj {domain a b : List Char} (ha : a ∈ ancestorsOf domain)
    (hb : b ∈ ancestorsOf domain) (hlength : a.length = b.length) : a = b := by
  by_contra hne
  have hlengths : (ancestorsOf domain).Pairwise fun a b => a.length ≠ b.length :=
    (pairwise_ancestorsOf domain).imp fun h => (Nat.ne_of_lt h).symm
  have : Std.Symm fun a b : List Char => a.length ≠ b.length := ⟨fun _ _ h => h.symm⟩
  exact hlengths.forall ha hb hne hlength

/-! ## The dictionaries -/

variable {py : Python} {lines : List (List Char)}

theorem filedDomains_concat (line : List Char) :
    filedDomains py (lines ++ [line]) = filedDomains py lines ++ (domainKey py line).toList := by
  unfold filedDomains
  rw [List.filterMap_append]
  cases h : domainKey py line <;> simp [h]

theorem lastLine_concat_none {line : List Char} (h : domainKey py line = none) :
    lastLine py (lines ++ [line]) = lastLine py lines := by
  funext d
  unfold lastLine
  rw [List.reverse_append, List.reverse_singleton, List.singleton_append,
    List.find?_cons_of_neg (by simp [h])]

theorem lastLine_concat_some {line domain : List Char} (h : domainKey py line = some domain) :
    lastLine py (lines ++ [line]) = Function.update (lastLine py lines) domain line := by
  funext d
  rw [Function.update_apply]
  unfold lastLine
  rw [List.reverse_append, List.reverse_singleton, List.singleton_append]
  by_cases hd : d = domain
  · subst hd
    rw [List.find?_cons_of_pos (by simp [h]), if_pos rfl]
    rfl
  · rw [List.find?_cons_of_neg (by simpa [h] using Ne.symm hd), if_neg hd]

/-- The dictionaries after some lines. -/
def collected (py : Python) (lines : List (List Char)) : Collected where
  activeEntries := Dict.table (Dict.firsts (filedDomains py lines)) (lastLine py lines)
  ancestorMap := Dict.table (Dict.firsts ((filedDomains py lines).flatMap ancestorsOf)) fun ancestor =>
    (filedDomains py lines).filter (ancestor ∈ ancestorsOf ·)
  linesMap := Dict.table (Dict.firsts (filedDomains py lines)) (lastLine py lines)
  ttlMap := Dict.table (Dict.firsts (filedDomains py lines)) fun domain =>
    (ttlColumn py (lastLine py lines domain)).join

/-- The inner loop over the ancestors of a domain. -/
theorem foldl_ancestors (domain : List Char) {seen : List (List Char)}
    {f : List Char → List (List Char)} (hf : ∀ a, a ∉ seen → f a = []) {as : List (List Char)}
    (has : as.Nodup) :
    as.foldl (fun m a => Dict.set m a ((Dict.get? m a).getD [] ++ [domain]))
        (Dict.table (Dict.firsts seen) f) =
      Dict.table (Dict.firsts (seen ++ as)) fun a => if a ∈ as then f a ++ [domain] else f a := by
  induction as generalizing seen f with
  | nil => simp
  | cons a as ih =>
    obtain ⟨hnew, hrest⟩ := List.nodup_cons.mp has
    have hold : (Dict.get? (Dict.table (Dict.firsts seen) f) a).getD [] = f a := by
      rw [Dict.get?_table]
      split
      · rfl
      · next hseen => exact (hf a fun h => hseen (Dict.mem_firsts.mpr h)).symm
    rw [List.foldl_cons, hold, Dict.set_firsts, ih _ hrest, List.append_assoc,
      List.singleton_append]
    · -- an ancestor occurs once in the list, so it is given the domain once
      congr 1
      funext b
      by_cases hb : b = a
      · subst hb
        simp [hnew]
      · simp [hb]
    · intro b hb
      rw [List.mem_append, List.mem_singleton, not_or] at hb
      rw [Function.update_of_ne hb.2]
      exact hf b hb.1

theorem collectLine_collected (line : List Char) :
    collectLine py (collected py lines) line =
      if (domainKey py line).isSome ∧ ttlColumn py line = none then none
      else some (collected py (lines ++ [line])) := by
  rw [collectLine]
  cases hkey : domainKey py line with
  | none =>
    rw [if_neg (by simp)]
    unfold collected
    rw [filedDomains_concat, lastLine_concat_none hkey, hkey, Option.toList_none, List.append_nil]
  | some domain =>
    cases httl : ttlColumn py line with
    | none => rw [if_pos ⟨rfl, rfl⟩]; rfl
    | some ttl =>
      -- an ancestor that is new to the dictionary has no domains so far
      have hunlisted : ∀ a, a ∉ (filedDomains py lines).flatMap ancestorsOf →
          (filedDomains py lines).filter (a ∈ ancestorsOf ·) = [] := by
        intro a ha
        refine List.filter_eq_nil_iff.mpr fun d hd hmem => ha ?_
        exact List.mem_flatMap.mpr ⟨d, hd, of_decide_eq_true hmem⟩
      rw [if_neg (by simp)]
      unfold collected
      rw [filedDomains_concat, lastLine_concat_some hkey, hkey, Option.toList_some]
      dsimp only [Option.map_some]
      rw [Dict.set_firsts, Dict.set_firsts, foldl_ancestors _ hunlisted (nodup_ancestorsOf domain),
        List.flatMap_append, List.flatMap_singleton]
      congr 3
      · funext ancestor
        by_cases hmem : ancestor ∈ ancestorsOf domain <;> simp [hmem]
      · funext d
        by_cases hd : d = domain
        · subst hd
          rw [Function.update_self, Function.update_self, httl]
          rfl
        · rw [Function.update_of_ne hd, Function.update_of_ne hd]

/-- **What the loop over the lines collects.** -/
theorem collectLines_collected {before : List (List Char)} :
    (TtlsReadable py lines →
      collectLines py (collected py before) lines = some (collected py (before ++ lines))) ∧
    (¬ TtlsReadable py lines → collectLines py (collected py before) lines = none) := by
  induction lines generalizing before with
  | nil =>
    rw [List.append_nil]
    exact ⟨fun _ => rfl, fun h => absurd (fun line hline => absurd hline List.not_mem_nil) h⟩
  | cons line lines ih =>
    have hcons : TtlsReadable py (line :: lines) ↔
        ¬ ((domainKey py line).isSome ∧ ttlColumn py line = none) ∧ TtlsReadable py lines := by
      unfold TtlsReadable
      rw [List.forall_mem_cons, not_and, ← ne_eq, ← Option.isSome_iff_ne_none]
    have happend : before ++ line :: lines = (before ++ [line]) ++ lines := by
      rw [List.append_assoc, List.singleton_append]
    rw [collectLines, collectLine_collected, hcons, happend]
    split
    · next hraises => exact ⟨fun h => absurd hraises h.1, fun _ => rfl⟩
    · next hreads =>
      obtain ⟨hgood, hbad⟩ := @ih (before ++ [line])
      exact ⟨fun h => hgood h.2, fun h => hbad fun hrest => h ⟨hreads, hrest⟩⟩

/-! ## The groups -/

/-- The loop over the ancestors takes groups greedily. -/
theorem foldl_rollupStep {cs : List (List Char)} {groups : Dict (List Char) (List (List Char))}
    (hcs : cs.Nodup) (hnew : ∀ a ∈ cs, a ∉ groups.map Prod.fst)
    (hlisted : ∀ a ∈ cs, a ∈ (filedDomains py lines).flatMap ancestorsOf) :
    cs.foldl (rollupStep (collected py lines))
        ⟨Dict.table ((Dict.firsts (filedDomains py lines)).filter fun d => ∀ g ∈ groups, d ∉ g.2)
          (lastLine py lines), groups⟩ =
      ⟨Dict.table ((Dict.firsts (filedDomains py lines)).filter fun d =>
          ∀ g ∈ greedyGroups (filedDomains py lines) ancestorsOf 3 groups cs, d ∉ g.2)
          (lastLine py lines),
        greedyGroups (filedDomains py lines) ancestorsOf 3 groups cs⟩ := by
  induction cs generalizing groups with
  | nil => rfl
  | cons a cs ih =>
    obtain ⟨ha, hrest⟩ := List.nodup_cons.mp hcs
    -- the children are those of the greedy grouping
    have hchildren : (((collected py lines).ancestorMap.get? a).getD []).filter
        (· ∈ (Dict.table ((Dict.firsts (filedDomains py lines)).filter fun d =>
          ∀ g ∈ groups, d ∉ g.2) (lastLine py lines)).keys) =
        freeUnder (filedDomains py lines) ancestorsOf groups a := by
      have hget : ((collected py lines).ancestorMap.get? a).getD [] =
          (filedDomains py lines).filter (a ∈ ancestorsOf ·) := by
        rw [collected]
        rw [Dict.get?_table, if_pos (Dict.mem_firsts.mpr (hlisted a List.mem_cons_self))]
        rfl
      rw [hget, List.filter_filter, Dict.keys_table]
      refine List.filter_congr fun d hd => ?_
      rw [← Bool.decide_and, decide_eq_decide, List.mem_filter, decide_eq_true_eq,
        Dict.mem_firsts]
      exact ⟨fun h => ⟨h.2, h.1.2⟩, fun h => ⟨⟨hd, h.2⟩, h.1⟩⟩
    have hset : ∀ children, Dict.set groups a children = groups ++ [(a, children)] :=
      fun children => if_neg (hnew a List.mem_cons_self)
    have hpopped : (freeUnder (filedDomains py lines) ancestorsOf groups a).foldl Dict.pop
        (Dict.table ((Dict.firsts (filedDomains py lines)).filter fun d => ∀ g ∈ groups, d ∉ g.2)
          (lastLine py lines)) =
        Dict.table ((Dict.firsts (filedDomains py lines)).filter fun d =>
          ∀ g ∈ groups ++ [(a, freeUnder (filedDomains py lines) ancestorsOf groups a)], d ∉ g.2)
          (lastLine py lines) := by
      rw [Dict.foldl_pop_table, List.filter_filter]
      refine congrArg (Dict.table · _) (List.filter_congr fun d _ => ?_)
      rw [← Bool.decide_and, decide_eq_decide]
      simp only [List.mem_append, List.mem_singleton, or_imp, forall_and, forall_eq]
      exact and_comm
    rw [List.foldl_cons, greedyGroups, rollupStep, hchildren]
    dsimp only
    split
    · rw [hpopped, hset]
      refine ih hrest (fun b hb => ?_) fun b hb => hlisted b (List.mem_cons_of_mem _ hb)
      rw [List.map_append, List.mem_append, not_or]
      refine ⟨hnew b (List.mem_cons_of_mem _ hb), fun hba => ?_⟩
      obtain rfl := List.mem_singleton.mp hba
      exact ha hb
    · exact ih hrest (fun b hb => hnew b (List.mem_cons_of_mem _ hb))
        fun b hb => hlisted b (List.mem_cons_of_mem _ hb)

theorem mem_groupedAncestors {a : List Char} :
    a ∈ groupedAncestors py lines ↔
      a ∈ (filedDomains py lines).flatMap ancestorsOf ∧ 3 ≤ (groupMembers py lines a).length := by
  rw [groupedAncestors]
  rw [List.mem_filter, List.mem_mergeSort, Dict.mem_firsts, decide_eq_true_eq]

/-- A domain is in no group exactly if no ancestor of it has one. -/
theorem mem_no_group_iff {d : List Char} (hd : d ∈ filedDomains py lines) :
    (∀ a ∈ groupedAncestors py lines, d ∉ groupMembers py lines a) ↔
      ∀ a ∈ ancestorsOf d, (groupMembers py lines a).length < 3 := by
  constructor
  · intro hfree a ha
    by_contra hsize
    obtain ⟨b, hb, -, hbsize, hmem⟩ := exists_share hd ha (Nat.not_lt.mp hsize)
    exact hfree b (mem_groupedAncestors.mpr ⟨List.mem_flatMap.mpr ⟨d, hd, hb⟩, hbsize⟩) hmem
  · intro hsmall a ha hmem
    exact Nat.not_lt.mpr (mem_groupedAncestors.mp ha).2 (hsmall a (mem_share.mp hmem).2.1)

/-- `sorted(ancestors, key=len, reverse=True)` -/
theorem pairwise_longestFirst (ancestors : List (List Char)) :
    (ancestors.mergeSort fun a b => b.length ≤ a.length).Pairwise fun a b => b.length ≤ a.length := by
  refine (List.pairwise_mergeSort ?_ ?_ _).imp fun h => of_decide_eq_true h
  · intro a b c hab hbc
    simp only [decide_eq_true_eq] at hab hbc ⊢
    omega
  · intro a b
    simp only [Bool.or_eq_true, decide_eq_true_eq]
    omega

/-- **What the loop over the ancestors finds.** -/
theorem findRollups_collected :
    findRollups (collected py lines) =
      ⟨Dict.table (ungroupedDomains py lines) (lastLine py lines),
        (groupedAncestors py lines).map fun a => (a, groupMembers py lines a)⟩ := by
  have hmem : ∀ a, a ∈ (Dict.firsts ((filedDomains py lines).flatMap ancestorsOf)).mergeSort
      (fun a b => b.length ≤ a.length) ↔ a ∈ (filedDomains py lines).flatMap ancestorsOf := by
    intro a
    rw [List.mem_mergeSort, Dict.mem_firsts]
  have hnodup : ((Dict.firsts ((filedDomains py lines).flatMap ancestorsOf)).mergeSort
      fun a b => b.length ≤ a.length).Nodup :=
    (List.mergeSort_perm _ _).nodup_iff.mpr (Dict.nodup_firsts _)
  -- longest ancestors first: a domain goes to the first group that takes it, and never to two
  have hgreedy : greedyGroups (filedDomains py lines) ancestorsOf 3 []
      ((Dict.firsts ((filedDomains py lines).flatMap ancestorsOf)).mergeSort
        fun a b => b.length ≤ a.length) =
      (groupedAncestors py lines).map fun a => (a, groupMembers py lines a) :=
    greedyGroups_eq (pairwise_longestFirst _) hnodup
      (fun d hd a ha => (hmem a).mpr (List.mem_flatMap.mpr ⟨d, hd, ha⟩))
      (fun d _ a ha b hb => ancestorsOf_inj ha hb)
  have hloop := @foldl_rollupStep py lines _ [] hnodup (fun a _ => List.not_mem_nil)
    fun a ha => (hmem a).mp ha
  have hall : (Dict.firsts (filedDomains py lines)).filter
      (fun d => ∀ g ∈ ([] : Dict (List Char) (List (List Char))), d ∉ g.2) =
      Dict.firsts (filedDomains py lines) :=
    List.filter_eq_self.mpr fun d _ => decide_eq_true fun g hg => absurd hg List.not_mem_nil
  have hkeys : (collected py lines).ancestorMap.keys =
      Dict.firsts ((filedDomains py lines).flatMap ancestorsOf) := Dict.keys_table
  rw [findRollups]
  rw [hkeys]
  rw [hall, hgreedy] at hloop
  refine hloop.trans ?_
  -- what is left is in no group
  have hungrouped : (Dict.firsts (filedDomains py lines)).filter (fun d =>
      ∀ g ∈ (groupedAncestors py lines).map fun a => (a, groupMembers py lines a), d ∉ g.2) =
      ungroupedDomains py lines := by
    refine List.filter_congr fun d hd => ?_
    rw [decide_eq_decide, List.forall_mem_map]
    exact mem_no_group_iff (Dict.mem_firsts.mp hd)
  rw [hungrouped]

/-! ## The prompts -/

theorem mem_filedDomains {d : List Char} :
    d ∈ filedDomains py lines ↔ ∃ line ∈ lines, domainKey py line = some d :=
  List.mem_filterMap

/-- The last line filed under a domain is one of the lines, and filed there. -/
theorem lastLine_filed {d : List Char} (hd : d ∈ filedDomains py lines) :
    lastLine py lines d ∈ lines ∧ domainKey py (lastLine py lines d) = some d := by
  obtain ⟨line, hline, hkey⟩ := mem_filedDomains.mp hd
  rw [lastLine]
  cases hfind : lines.reverse.find? fun line => domainKey py line = some d with
  | none =>
    have hnone := List.find?_eq_none.mp hfind line (List.mem_reverse.mpr hline)
    exact absurd (decide_eq_true hkey) hnone
  | some last =>
    have hlast : domainKey py last = some d := by simpa using List.find?_some hfind
    exact ⟨List.mem_reverse.mp (List.mem_of_find?_eq_some hfind), hlast⟩

/-- What a choice appends are the group's lines. -/
theorem appended_collected (hlines : [] ∉ lines) (ancestor : List Char) (choice : Choice) :
    appended (collected py lines) ancestor (groupMembers py lines ancestor) choice =
      groupLines py lines ancestor choice := by
  have hfiled : ∀ d ∈ groupMembers py lines ancestor, d ∈ filedDomains py lines :=
    fun d hd => (mem_share.mp hd).1
  -- the rule's ttl comes from the members' last lines, the lines that are kept are these themselves
  cases choice with
  | collapse timestamp =>
    have httls : (groupMembers py lines ancestor).map
        (fun child => ((collected py lines).ttlMap.get? child).join) =
        (groupMembers py lines ancestor).map fun domain =>
          (ttlColumn py (lastLine py lines domain)).join := by
      refine List.map_congr_left fun d hd => ?_
      rw [collected]
      rw [Dict.get?_table, if_pos (Dict.mem_firsts.mpr (hfiled d hd))]
      rfl
    rw [appended, groupLines]
    rw [httls]
  | keep =>
    show (groupMembers py lines ancestor).filterMap
        (fun child => ((collected py lines).linesMap.get? child).filter (· ≠ [])) =
      (groupMembers py lines ancestor).map (lastLine py lines)
    rw [← List.filterMap_eq_map]
    refine List.filterMap_congr fun d hd => ?_
    have hmem := (lastLine_filed (hfiled d hd)).1
    have hne : lastLine py lines d ≠ [] := by
      intro hnil
      rw [hnil] at hmem
      exact hlines hmem
    rw [collected]
    rw [Dict.get?_table, if_pos (Dict.mem_firsts.mpr (hfiled d hd)), Option.filter_some_pos]
    · rfl
    · exact decide_eq_true hne

theorem askAll_collected (hlines : [] ∉ lines) {ancestors : List (List Char)}
    {newLines : List (List Char)} {answers : List TypedAnswer} :
    askAll py (collected py lines) newLines
        (ancestors.map fun a => (a, groupMembers py lines a)) answers =
      (choicesOf py ancestors.length answers).map fun choices =>
        newLines ++ (List.zipWith (groupLines py lines) ancestors choices).flatten := by
  induction ancestors generalizing newLines answers with
  | nil =>
    rw [List.map_nil, askAll, List.length_nil, choicesOf]
    simp
  | cons a ancestors ih =>
    rw [List.map_cons, askAll, List.length_cons, choicesOf]
    cases hask : ask py answers with
    | none => rfl
    | some p =>
      obtain ⟨choice, rest⟩ := p
      dsimp only [Option.bind_some]
      rw [ih, Option.map_map, appended_collected hlines]
      refine congrArg (Option.map · _) (funext fun choices => ?_)
      simp

/-! ## The file -/

/-- The choices that lead to a new file: the lines can be read, there is a group, and every
prompt is answered. -/
def choicesFor (py : Python) (file : CStr) (answers : List TypedAnswer) : Option (List Choice) :=
  if TtlsReadable py (fileLines py file) ∧ groupedAncestors py (fileLines py file) ≠ [] then
    choicesOf py (groupedAncestors py (fileLines py file)).length answers
  else none

/-- **What `optimize_blocklist` writes**: the lines that survive. -/
theorem optimizeBlocklist_eq (py : Python) (file : CStr) (answers : List TypedAnswer) :
    optimizeBlocklist py file answers =
      (choicesFor py file answers).map (survivingLines py (fileLines py file)) := by
  have hlines : [] ∉ fileLines py file := nil_not_mem_pyLines _
  obtain ⟨hgood, hbad⟩ := @collectLines_collected py (fileLines py file) []
  have hstart : collected py [] = ⟨[], [], [], []⟩ := rfl
  rw [hstart] at hgood hbad
  rw [optimizeBlocklist, choicesFor]
  rw [← fileLines]
  by_cases hread : TtlsReadable py (fileLines py file)
  · rw [hgood hread, List.nil_append, Option.bind_some, findRollups_collected]
    dsimp only
    by_cases hnone : groupedAncestors py (fileLines py file) = []
    · simp [hnone]
    · rw [if_neg (by simpa using hnone), if_pos ⟨hread, hnone⟩, askAll_collected hlines,
        Dict.values_table]
      rfl
  · rw [hbad hread, if_neg fun h => hread h.1]
    rfl

end Nyet
