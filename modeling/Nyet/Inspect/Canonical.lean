import Nyet.Blocklist.Text

/-!
# Canonical names and the stems in them

`canonicalize` of deep_inspect.py and the automaton that looks for stems. The name is put in
lower case, loses its TLD and its separators, digits become the letters they stand for, and
letters that are doubled become one. What a name holds is held by its canonical form in canonical
form (`collapse_infix_canonicalize`). A stem with a doubled letter is not held itself then
(`canonical_stems`), and the automaton does not see it.
-/

namespace Nyet

/-- `SUSPICIOUS_STEMS`. It is a set, and the order in which Python goes through it is any. -/
def suspiciousStems : List (List Char) :=
  ["metric", "metrix", "telemetry", "analytics", "analtyics",
   "track", "pixel", "beacon", "logger", "ingest", "advert",
   "segment", "measure", "consent", "collect"].map String.toList

/-! ## canonicalize -/

/-- What `\.[a-z]{2,6}$` leaves behind where it matches; `$` also matches before a line feed that
is the last character. -/
def tldMatch : List Char → Option (List Char)
  | '.' :: cs =>
    let letters := cs.takeWhile fun c => 'a' ≤ c && c ≤ 'z'
    let rest := cs.dropWhile fun c => 'a' ≤ c && c ≤ 'z'
    if 2 ≤ letters.length ∧ letters.length ≤ 6 ∧ (rest = [] ∨ rest = ['\n']) then some rest
    else none
  | _ => none

/-- `re.sub(r'\.[a-z]{2,6}$', '', s)`; in what a match leaves behind there is no other. -/
def subTld : List Char → List Char
  | [] => []
  | c :: cs =>
    match tldMatch (c :: cs) with
    | some rest => rest
    | none => c :: subTld cs

/-- `[\.\-\_]` -/
def isSeparator (c : Char) : Bool := c = '.' || c = '-' || c = '_'

/-- `leetspeak.get(c, c)` -/
def leetspeak (c : Char) : Char :=
  match c with
  | '0' => 'o'
  | '1' => 'i'
  | '3' => 'e'
  | '4' => 'a'
  | '5' => 's'
  | '8' => 'b'
  | c => c

section Collapse

variable {α : Type} [DecidableEq α]

/-- `if char != collapsed[-1]: collapsed.append(char)` -/
def collapseStep (collapsed : List α) (char : α) : List α :=
  if collapsed.getLast? ≠ some char then collapsed ++ [char] else collapsed

/-- The letters of a string, those that are doubled once. -/
def collapse : List α → List α
  | [] => []
  | c :: cs => cs.foldl collapseStep [c]

/-- The loop goes on from the last letter, whatever is before it, -/
theorem foldl_collapseStep_append (front : List α) {back : List α} (hback : back ≠ [])
    (s : List α) :
    s.foldl collapseStep (front ++ back) = front ++ s.foldl collapseStep back := by
  induction s generalizing back with
  | nil => rfl
  | cons c s ih =>
    have hlast : (front ++ back).getLast? = back.getLast? := List.getLast?_append_of_ne_nil _ hback
    have hstep : collapseStep (front ++ back) c = front ++ collapseStep back c := by
      rw [collapseStep, collapseStep, hlast]
      split
      · rw [List.append_assoc]
      · rfl
    have hne : collapseStep back c ≠ [] := by
      rw [collapseStep]
      split
      · exact List.append_ne_nil_of_left_ne_nil hback _
      · exact hback
    rw [List.foldl_cons, List.foldl_cons, hstep, ih hne]

/-- and takes nothing back. -/
theorem prefix_foldl_collapseStep (collapsed s : List α) :
    collapsed <+: s.foldl collapseStep collapsed := by
  induction s generalizing collapsed with
  | nil => exact List.prefix_rfl
  | cons c s ih =>
    refine List.IsPrefix.trans ?_ (ih (collapseStep collapsed c))
    rw [collapseStep]
    split
    · exact List.prefix_append _ _
    · exact List.prefix_rfl

/-- After a letter the loop has it for its last. -/
theorem collapseStep_getLast (collapsed : List α) (c : α) :
    ∃ front, collapseStep collapsed c = front ++ [c] := by
  unfold collapseStep
  split
  · exact ⟨collapsed, rfl⟩
  · next hlast =>
    obtain ⟨front, hfront⟩ := List.getLast?_eq_some_iff.mp (not_not.mp hlast)
    exact ⟨front, hfront⟩

/-- **What is held somewhere is held collapsed in what the string collapses to**, also where its
first or its last letter is one with its neighbours. -/
theorem collapse_infix {w s : List α} (h : w <:+: s) : collapse w <:+: collapse s := by
  obtain ⟨before, after, rfl⟩ := h
  cases w with
  | nil => exact List.nil_infix
  | cons c w =>
    show w.foldl collapseStep [c] <:+: _
    cases before with
    | nil =>
      show _ <:+: (w ++ after).foldl collapseStep [c]
      rw [List.foldl_append]
      exact (prefix_foldl_collapseStep _ after).isInfix
    | cons b before =>
      show _ <:+: (before ++ c :: w ++ after).foldl collapseStep [b]
      obtain ⟨front, hfront⟩ := collapseStep_getLast (before.foldl collapseStep [b]) c
      rw [List.append_assoc, List.foldl_append, List.cons_append, List.foldl_cons, hfront,
        foldl_collapseStep_append front (List.cons_ne_nil c []), List.foldl_append]
      exact (prefix_foldl_collapseStep _ after).isInfix.trans (List.suffix_append _ _).isInfix

end Collapse

/-- `canonicalize(domain)` -/
def canonicalize (lower : List Char → List Char) (domain : List Char) : List Char :=
  let s := subTld (lower domain)
  let s := s.filter fun c => !isSeparator c
  let s := s.map leetspeak
  collapse s

/-- A label is a part of its name. -/
theorem infix_of_mem_splitOn {c : Char} {name label : List Char} (h : label ∈ name.splitOn c) :
    label <:+: name := by
  have hparts : ∀ parts : List (List Char), label ∈ parts → label <:+: [c].intercalate parts := by
    intro parts hmem
    induction parts with
    | nil => cases hmem
    | cons part parts ih =>
      cases parts with
      | nil =>
        rw [List.mem_singleton.mp hmem, List.intercalate_singleton]
      | cons part' parts =>
        rw [List.intercalate_cons_cons, List.append_assoc]
        rcases List.mem_cons.mp hmem with rfl | hmem
        · exact (List.prefix_append _ _).isInfix
        · have hrest := (List.suffix_append [c] ([c].intercalate (part' :: parts))).isInfix
          exact (ih hmem).trans (hrest.trans (List.suffix_append part _).isInfix)
  have hname := hparts _ h
  rwa [List.intercalate_splitOn] at hname

/-- No stem has anything in it that is left out or replaced. -/
theorem stem_letters : ∀ stem ∈ suspiciousStems,
    stem.filter (fun c => !isSeparator c) = stem ∧ stem.map leetspeak = stem := by decide

/-- **What a name holds of the stems is in its canonical form**, collapsed. -/
theorem collapse_infix_canonicalize {lower : List Char → List Char} {domain stem : List Char}
    (hstem : stem ∈ suspiciousStems) (h : stem <:+: subTld (lower domain)) :
    collapse stem <:+: canonicalize lower domain := by
  obtain ⟨hfilter, hmap⟩ := stem_letters stem hstem
  have hkept := (h.filter fun c => !isSeparator c).map leetspeak
  rw [hfilter, hmap] at hkept
  exact collapse_infix hkept

/-- **The stems in their canonical form**: two of them are not what they were. -/
theorem canonical_stems : ∀ stem ∈ suspiciousStems,
    collapse stem = stem ∨ stem = "logger".toList ∨ stem = "collect".toList := by decide

theorem canonicalize_ne_nil {lower : List Char → List Char} {domain stem : List Char}
    (hstem : stem ∈ suspiciousStems) (h : stem <:+: subTld (lower domain)) :
    canonicalize lower domain ≠ [] := by
  have hne : ∀ stem ∈ suspiciousStems, collapse stem ≠ [] := by decide
  intro hnil
  have hcanon := collapse_infix_canonicalize hstem h
  rw [hnil, List.infix_nil] at hcanon
  exact hne stem hstem hcanon

/-! ## The automaton -/

/-- Whether a character is a small letter of a pattern, with `re.IGNORECASE`. -/
def ignoreCaseEq (letter c : Char) : Bool :=
  c = letter || c = letter.toUpper ||
    (letter = 'i' && (c = '\u0130' || c = '\u0131')) || (letter = 's' && c = '\u017f') ||
    (letter = 'k' && c = '\u212a')

/-- Whether a string starts as the pattern says. -/
def matchesAt : List Char → List Char → Bool
  | [], _ => true
  | _ :: _, [] => false
  | letter :: pattern, c :: cs => ignoreCaseEq letter c && matchesAt pattern cs

/-- `STEM_AUTOMATON.search(canon)`, with the text it matches: at the first place where a stem
does, the first of the stems, in the order Python went through them when it built the pattern. -/
def stemSearch (stems : List (List Char)) (canon : List Char) : Option (List Char) :=
  canon.tails.findSome? fun rest =>
    (stems.find? fun stem => matchesAt stem rest).map fun stem => rest.take stem.length

theorem matchesAt_append (pattern rest : List Char) :
    matchesAt pattern (pattern ++ rest) = true := by
  induction pattern with
  | nil => rfl
  | cons letter pattern ih =>
    have hsame : ignoreCaseEq letter letter = true := by simp [ignoreCaseEq]
    show (ignoreCaseEq letter letter && matchesAt pattern (pattern ++ rest)) = true
    rw [hsame, ih]
    rfl

/-- A stem that is there is found, or another before it. -/
theorem stemSearch_isSome {stems : List (List Char)} {canon stem : List Char} (hstem : stem ∈ stems)
    (h : stem <:+: canon) : ∃ found, stemSearch stems canon = some found := by
  obtain ⟨before, after, rfl⟩ := h
  rw [← Option.isSome_iff_exists, stemSearch, List.findSome?_isSome_iff]
  refine ⟨stem ++ after, ?_, ?_⟩
  · rw [List.mem_tails, List.append_assoc]
    exact List.suffix_append before _
  · rw [Option.isSome_map, List.find?_isSome]
    exact ⟨stem, hstem, matchesAt_append stem after⟩

end Nyet
