import Nyet.Bytes
import Nyet.Lib.Trie

/-!
# The keyword trie (`FW_TRIE`)

The nodes are numbered by hand. The first of them stand in the initializer without a number,
in order, and there is none for 18: from there on each is at one place before the number its
comment and the edges to it give, up to those with a designator. So the edges that should lead
into the words with an `s` and an `m` at the front lead one node too far, and what can be
spelled is `sam` and `sraal`, and neither `stream` nor `mail` nor `static`
(`wordsFrom_fwTrie`).
-/

namespace Nyet

/-- A node: the entries of `next` that are not 0, and `is_end`. -/
structure FwTrieNode where
  edges : List (UInt8 × Nat)
  isEnd : Bool

/-- `FW_IDX` of a letter, with where it leads. -/
def fwEdge (letter : Char) (node : Nat) : UInt8 × Nat := (letter.toNat.toUInt8 - 97, node)

/-- A node without an end. -/
def fwInner (edges : List (UInt8 × Nat)) : FwTrieNode := ⟨edges, false⟩

/-- A node without edges. -/
def fwEnd : FwTrieNode := ⟨[], true⟩

/-- The nodes without a designator, in order. -/
def fwPositional : List FwTrieNode :=
  [fwInner [fwEdge 'g' 1, fwEdge 'u' 6, fwEdge 'c' 9, fwEdge 'a' 14, fwEdge 's' 19,
      fwEdge 'm' 25],   -- root
    fwInner [fwEdge 'o' 2],   -- 1
    fwInner [fwEdge 'o' 3],   -- 2
    fwInner [fwEdge 'g' 4],   -- 3
    fwInner [fwEdge 'l' 5],   -- 4
    fwInner [fwEdge 'e' 29],   -- 5
    fwInner [fwEdge 's' 7],   -- 6
    fwInner [fwEdge 'e' 8],   -- 7
    fwInner [fwEdge 'r' 30],   -- 8
    fwInner [fwEdge 'o' 10, fwEdge 'l' 31],   -- 9
    fwInner [fwEdge 'n' 11],   -- 10
    fwInner [fwEdge 't' 12],   -- 11
    fwInner [fwEdge 'e' 13],   -- 12
    fwInner [fwEdge 'n' 33],   -- 13
    fwInner [fwEdge 'p' 15, fwEdge 'u' 16],   -- 14
    fwInner [fwEdge 'i' 34],   -- 15
    fwInner [fwEdge 't' 17],   -- 16
    fwInner [fwEdge 'h' 35],   -- 17
    fwInner [fwEdge 't' 20],   -- 19
    fwInner [fwEdge 'r' 21, fwEdge 'a' 22],   -- 20
    fwInner [fwEdge 'e' 23],   -- 21
    fwInner [fwEdge 'a' 24],   -- 22
    fwInner [fwEdge 'm' 36],   -- 23
    fwInner [fwEdge 't' 37],   -- 24
    fwInner [fwEdge 'a' 26],   -- 25
    fwInner [fwEdge 'i' 27],   -- 26
    fwInner [fwEdge 'l' 38]]   -- 27

/-- The nodes with one. -/
def fwDesignated : List (Nat × FwTrieNode) :=
  [(29, fwEnd),   -- google
    (30, fwEnd),   -- user
    (31, fwInner [fwEdge 'o' 32]),
    (32, fwInner [fwEdge 'u' 39]),
    (33, fwInner [fwEdge 't' 40]),
    (34, fwEnd),   -- api
    (35, fwEnd),   -- auth
    (36, fwEnd),   -- stream
    (37, fwInner [fwEdge 'i' 41]),
    (38, fwEnd),   -- mail
    (39, fwInner [fwEdge 'd' 42]),
    (40, fwEnd),   -- content
    (41, fwInner [fwEdge 'c' 43]),
    (42, fwEnd),   -- cloud
    (43, fwEnd)]   -- static

/-- `FW_TRIE[node]`. What no initializer names is zero. -/
def fwTrie (node : Nat) : FwTrieNode :=
  (fwDesignated.lookup node).getD (fwPositional.getD node (fwInner []))

/-- `FW_TRIE[node].next[idx]` -/
def FwTrieNode.next (node : FwTrieNode) (idx : UInt8) : Nat := (node.edges.lookup idx).getD 0

/-- `fw_char_to_node_idx`; `none` is -1. -/
def fwCharToNodeIdx (c : UInt8) : Option UInt8 :=
  if 97 ≤ c ∧ c ≤ 122 then some (c - 97) else if c = 45 then some 26 else none

/-- The loop over `curr`, on what is left of the label, with `node` and `matches`. -/
def matchFrom : Nat → CStr → Nat → Nat
  | _, [], matched => matched
  | node, c :: rest, matched =>
    match fwCharToNodeIdx c with
    | none => matched
    | some idx =>
      let node := (fwTrie node).next idx
      if node = 0 then matched
      else matchFrom node rest (if (fwTrie node).isEnd then matched + 1 else matched)

/-- `label`: the first 255 characters up to the first dot, in lower case. -/
def lowerLabel (domain : CStr) : CStr := ((domain.takeWhile (· ≠ dot)).take 255).map lowerByte

/-- `count_legit_subsequences` -/
def countLegitSubsequences (domain : CStr) : Nat :=
  let label := lowerLabel domain
  (List.range label.length).foldl (fun matched start => matchFrom 0 (label.drop start) matched) 0

/-- The words that the trie is for. -/
def legitWords : List CStr :=
  [cstr "google", cstr "user", cstr "content", cstr "cloud", cstr "api", cstr "auth",
    cstr "stream", cstr "mail", cstr "static"]

/-- Those it misses. -/
def missedWords : List CStr := [cstr "stream", cstr "mail", cstr "static"]

/-- What it counts in their stead. -/
def phantomWords : List CStr := [cstr "sam", cstr "sraal"]

/-! ## The trie -/

/-- `FW_TRIE`, its edges labelled with characters. -/
def fwWords : Lib.Trie Nat UInt8 where
  next node c := (fwCharToNodeIdx c).bind fun idx =>
    if (fwTrie node).next idx = 0 then none else some ((fwTrie node).next idx)
  isEnd node := (fwTrie node).isEnd

/-- The characters that have an index. -/
def fwLetters : List UInt8 := cstr "abcdefghijklmnopqrstuvwxyz-"

theorem fwWords_next (node : Nat) (c : UInt8) : fwWords.next node c =
    (fwCharToNodeIdx c).bind fun idx =>
      if (fwTrie node).next idx = 0 then none else some ((fwTrie node).next idx) := rfl

theorem fwWords_spelled : fwWords.Spelled fwLetters := by
  have hall : ∀ c, (fwCharToNodeIdx c).isSome = true → c ∈ fwLetters :=
    forall_byte (by decide +kernel)
  refine ⟨by decide, fun node c hnext => hall c ?_⟩
  cases hidx : fwCharToNodeIdx c with
  | none =>
    rw [fwWords_next, hidx] at hnext
    cases hnext
  | some idx => rfl

/-- **What the trie spells.** -/
theorem wordsFrom_fwTrie : fwWords.wordsFrom fwLetters 255 0 =
    [cstr "api", cstr "auth", cstr "cloud", cstr "content", cstr "google", cstr "sam",
      cstr "sraal", cstr "user"] := by
  decide +kernel

/-- The loop over `curr` is a walk along the trie. -/
theorem matchFrom_eq (node : Nat) (rest : CStr) (matched : Nat) :
    matchFrom node rest matched = matched + fwWords.walk node rest := by
  induction rest generalizing node matched with
  | nil => rfl
  | cons c rest ih =>
    rw [matchFrom, Lib.Trie.walk, fwWords_next]
    cases fwCharToNodeIdx c with
    | none => rfl
    | some idx =>
      rw [Option.bind_some]
      by_cases hnode : (fwTrie node).next idx = 0
      · rw [if_pos hnode]
        exact if_pos hnode
      rw [if_neg hnode]
      show (if (fwTrie node).next idx = 0 then matched else matchFrom _ rest _) =
        matched + ((if (fwTrie ((fwTrie node).next idx)).isEnd then 1 else 0) +
          fwWords.walk ((fwTrie node).next idx) rest)
      rw [if_neg hnode, ih]
      cases (fwTrie ((fwTrie node).next idx)).isEnd with
      | true => exact Nat.add_assoc ..
      | false => exact congrArg (matched + ·) (Nat.zero_add _).symm

/-- The loop over `start` adds the walks up. -/
theorem countLegitSubsequences_scan (domain : CStr) :
    countLegitSubsequences domain = fwWords.scan 0 (lowerLabel domain) := by
  have hfold : ∀ (starts : List Nat) (matched : Nat),
      starts.foldl (fun matched start => matchFrom 0 ((lowerLabel domain).drop start) matched)
        matched =
      matched + (starts.map fun start => fwWords.walk 0 ((lowerLabel domain).drop start)).sum := by
    intro starts
    induction starts with
    | nil => exact fun matched => (Nat.add_zero matched).symm
    | cons start starts ih =>
      intro matched
      rw [List.foldl_cons, ih, matchFrom_eq, List.map_cons, List.sum_cons, Nat.add_assoc]
  rw [countLegitSubsequences, hfold, Nat.zero_add]
  rfl

/-! ## Words found and words meant -/

theorem length_lowerLabel (domain : CStr) : (lowerLabel domain).length ≤ 255 := by
  rw [lowerLabel, List.length_map]
  exact List.length_take_le _ _

/-- A label without dots is taken as a whole. -/
theorem lowerLabel_eq {label : CStr} (hshort : label.length ≤ 255) (hdots : dot ∉ label) :
    lowerLabel label = label.map lowerByte := by
  have hall : label.takeWhile (· ≠ dot) = label := by
    refine List.takeWhile_eq_self_iff.mpr fun c hc => decide_eq_true ?_
    rintro rfl
    exact hdots hc
  rw [lowerLabel, hall, List.take_of_length_le hshort]

/-- **What is counted**: the words meant but for those that are missed, and the phantoms. -/
theorem countLegitSubsequences_add (domain : CStr) :
    countLegitSubsequences domain + Lib.occurrences missedWords (lowerLabel domain) =
      Lib.occurrences legitWords (lowerLabel domain) +
        Lib.occurrences phantomWords (lowerLabel domain) := by
  have hperm : (fwWords.wordsFrom fwLetters 255 0 ++ missedWords).Perm
      (legitWords ++ phantomWords) := by
    rw [wordsFrom_fwTrie]
    decide
  rw [countLegitSubsequences_scan,
    Lib.Trie.scan_eq_occurrences fwWords_spelled (length_lowerLabel domain),
    ← Lib.occurrences_append, ← Lib.occurrences_append]
  exact Lib.occurrences_perm hperm _

/-- **When the trie counts its nine words**: exactly if the label holds `sam` and `sraal` as
often as `stream`, `mail` and `static`. -/
theorem count_legit_subsequences_iff {label : CStr} (hshort : label.length ≤ 255)
    (hdots : dot ∉ label) :
    countLegitSubsequences label = Lib.occurrences legitWords (label.map lowerByte) ↔
      Lib.occurrences phantomWords (label.map lowerByte) =
        Lib.occurrences missedWords (label.map lowerByte) := by
  have hadd := countLegitSubsequences_add label
  rw [lowerLabel_eq hshort hdots] at hadd
  omega

/-- A label that holds none of them. -/
theorem count_legit_subsequences_google :
    countLegitSubsequences (cstr "GoogleUserContent") =
        Lib.occurrences legitWords ((cstr "GoogleUserContent").map lowerByte) ↔
      Lib.occurrences phantomWords ((cstr "GoogleUserContent").map lowerByte) =
        Lib.occurrences missedWords ((cstr "GoogleUserContent").map lowerByte) :=
  count_legit_subsequences_iff (by decide) (by decide)

example : countLegitSubsequences (cstr "GoogleUserContent") = 3 := by decide +kernel

/-- `mail` is missed, and `samsung` counts. -/
theorem mail_missed_and_sam_counted :
    countLegitSubsequences (cstr "mail") = 0 ∧
      Lib.occurrences legitWords ((cstr "mail").map lowerByte) = 1 ∧
      countLegitSubsequences (cstr "samsung") = 1 ∧
      Lib.occurrences legitWords ((cstr "samsung").map lowerByte) = 0 := by
  decide +kernel

end Nyet
