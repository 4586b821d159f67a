import Nyet.Blocklist.Lines

/-!
# Files as the scripts read them

The scripts read a TSV file as text and `load_blocklist` reads it as bytes. A file is its
text as the loader's stream delivers it, line ends read as `'\n'`; a `'\r'` that is left in
it is nothing special to `fgets`, and a line end to Python. `textRows_eq_flatMap` says that
the loader takes a text line by line, and `pyLines_universalNewlines` that Python's lines
are pieces of the loader's.
-/

namespace Nyet

-- every test of one text against a list of texts rests on this
instance instLawfulBEqText : LawfulBEq (List Char) := inferInstance

/-- What the scripts use of Python's text: reading bytes as UTF-8 with errors ignored,
`str.lower`, the digits `str.isdigit` knows beyond ASCII, and `int` of digits, which may raise
`ValueError`. -/
structure Python where
  decode : CStr → List Char
  lower : List Char → List Char
  otherDigit : Char → Bool
  int : List Char → Option Nat

/-- `str.isspace` of a single character. -/
def pyIsSpace (c : Char) : Bool :=
  let n := c.toNat
  (9 ≤ n && n ≤ 13) || (0x1c ≤ n && n ≤ 0x20) || n = 0x85 || n = 0xa0 || n = 0x1680 ||
    (0x2000 ≤ n && n ≤ 0x200a) || n = 0x2028 || n = 0x2029 || n = 0x202f || n = 0x205f || n = 0x3000

/-- `str.strip()` -/
def pyStrip (s : List Char) : List Char :=
  ((s.dropWhile pyIsSpace).reverse.dropWhile pyIsSpace).reverse

/-- `str.isdigit`; `otherDigit` says which characters beyond ASCII are digits. -/
def pyIsDigit (otherDigit : Char → Bool) (s : List Char) : Bool :=
  !s.isEmpty && s.all fun c => c.isDigit || (128 ≤ c.toNat && otherDigit c)

/-- Reading in text mode makes a `'\r'` that is left a line end, too. -/
def universalNewlines (text : List Char) : List Char :=
  text.map fun c => if c = '\r' then '\n' else c

/-- The lines `for raw_line in f` goes through, with their ends. -/
def pyLines : List Char → List (List Char)
  | [] => []
  | c :: cs =>
    if c = '\n' then ['\n'] :: pyLines cs
    else
      match pyLines cs with
      | [] => [[c]]
      | line :: lines => (c :: line) :: lines

/-- The lines of a file, as the scripts read them. -/
def fileLines (py : Python) (file : CStr) : List (List Char) :=
  pyLines (universalNewlines (py.decode file))

/-- The domain a line is filed under; `none` if it has less than two columns. -/
def domainKey (py : Python) (line : List Char) : Option (List Char) :=
  match (pyStrip line).splitOn '\t' with
  | _ :: column :: _ => some (py.lower (pyStrip column))
  | _ => none

/-- A line typed at a prompt, and the seconds since 2020 when it is. -/
structure TypedAnswer where
  typed : List Char
  time : Int
  deriving DecidableEq, Repr

/-- A text as bytes. -/
def utf8 (text : List Char) : CStr := text.flatMap String.utf8EncodeChar

/-- The rows `load_blocklist` reads from a text. -/
def textRows (now : UInt32) (text : List Char) : List Row := rowsOf now (some (utf8 text))

/-! ## Columns -/

section Columns

variable {α β : Type}

/-- What is not split at is in a piece. -/
theorem mem_splitOnP_of_mem {p : α → Bool} {c : α} (hc : p c = false) {s : List α} (h : c ∈ s) :
    ∃ piece ∈ s.splitOnP p, c ∈ piece := by
  induction s with
  | nil => cases h
  | cons d ds ih =>
    rw [List.splitOnP_cons_eq_if_modifyHead]
    split
    · next hd =>
      rcases List.mem_cons.mp h with rfl | h
      · rw [hc] at hd
        cases hd
      · obtain ⟨piece, hpiece, hmem⟩ := ih h
        exact ⟨piece, List.mem_cons_of_mem _ hpiece, hmem⟩
    · obtain ⟨first, rest, hsplit⟩ := List.exists_cons_of_ne_nil (List.splitOnP_ne_nil p ds)
      rw [hsplit] at ih ⊢
      rw [List.modifyHead_cons]
      rcases List.mem_cons.mp h with rfl | h
      · exact ⟨_, List.mem_cons_self, List.mem_cons_self⟩
      · obtain ⟨piece, hpiece, hmem⟩ := ih h
        rcases List.mem_cons.mp hpiece with rfl | hpiece
        · exact ⟨_, List.mem_cons_self, List.mem_cons_of_mem _ hmem⟩
        · exact ⟨piece, List.mem_cons_of_mem _ hpiece, hmem⟩

variable [DecidableEq α] [DecidableEq β]

/-- No piece holds what is split at. -/
theorem not_mem_of_mem_splitOn {a : α} {s piece : List α} (h : piece ∈ s.splitOn a) :
    a ∉ piece := by
  induction s generalizing piece with
  | nil =>
    rw [List.splitOn_nil, List.mem_singleton] at h
    rw [h]
    exact List.not_mem_nil
  | cons c cs ih =>
    rw [List.splitOn_cons_eq_if_modifyHead] at h
    split at h
    · rcases List.mem_cons.mp h with rfl | h
      · exact List.not_mem_nil
      · exact ih h
    · next hc =>
      obtain ⟨first, rest, hsplit⟩ := List.exists_cons_of_ne_nil (List.splitOn_ne_nil a cs)
      rw [hsplit, List.modifyHead_cons] at h
      rcases List.mem_cons.mp h with rfl | h
      · intro hmem
        rcases List.mem_cons.mp hmem with rfl | hmem
        · exact hc (beq_self_eq_true _)
        · exact ih (hsplit ▸ List.mem_cons_self) hmem
      · exact ih (hsplit ▸ List.mem_cons_of_mem _ h)

theorem mem_of_mem_splitOn {a c : α} {s piece : List α} (h : piece ∈ s.splitOn a) (hc : c ∈ piece) :
    c ∈ s := by
  induction s generalizing piece with
  | nil =>
    rw [List.splitOn_nil, List.mem_singleton] at h
    rwa [h] at hc
  | cons d ds ih =>
    rw [List.splitOn_cons_eq_if_modifyHead] at h
    split at h
    · rcases List.mem_cons.mp h with rfl | h
      · cases hc
      · exact List.mem_cons_of_mem _ (ih h hc)
    · obtain ⟨first, rest, hsplit⟩ := List.exists_cons_of_ne_nil (List.splitOn_ne_nil a ds)
      rw [hsplit, List.modifyHead_cons] at h
      rcases List.mem_cons.mp h with rfl | h
      · rcases List.mem_cons.mp hc with rfl | hc
        · exact List.mem_cons_self
        · exact List.mem_cons_of_mem _ (ih (hsplit ▸ List.mem_cons_self) hc)
      · exact List.mem_cons_of_mem _ (ih (hsplit ▸ List.mem_cons_of_mem _ h) hc)

theorem splitOn_map {f : α → β} {a : α} {b : β} {s : List α} (h : ∀ c ∈ s, f c = b ↔ c = a) :
    (s.map f).splitOn b = (s.splitOn a).map (List.map f) := by
  induction s with
  | nil => rfl
  | cons c cs ih =>
    have hc : (f c == b) = (c == a) := by
      rw [Bool.eq_iff_iff, beq_iff_eq, beq_iff_eq]
      exact h c List.mem_cons_self
    rw [List.map_cons, List.splitOn_cons_eq_if_modifyHead, List.splitOn_cons_eq_if_modifyHead,
      ih fun d hd => h d (List.mem_cons_of_mem _ hd), hc]
    split
    · rfl
    · obtain ⟨first, rest, hsplit⟩ := List.exists_cons_of_ne_nil (List.splitOn_ne_nil a cs)
      rw [hsplit]
      rfl

/-- Pieces that are not empty take a character each, and one between two. -/
theorem length_splitOn_le {a : α} {s : List α} (h : ∀ piece ∈ s.splitOn a, piece ≠ []) :
    2 * (s.splitOn a).length ≤ s.length + 1 := by
  have hjoin : ∀ pieces : List (List α), (∀ piece ∈ pieces, piece ≠ []) →
      2 * pieces.length ≤ ([a].intercalate pieces).length + 1 := by
    intro pieces hne
    induction pieces with
    | nil => exact Nat.zero_le _
    | cons piece pieces ih =>
      have hpos := List.length_pos_iff.mpr (hne piece List.mem_cons_self)
      have ih := ih fun piece hpiece => hne piece (List.mem_cons_of_mem _ hpiece)
      cases pieces with
      | nil =>
        rw [List.intercalate_singleton, List.length_singleton]
        omega
      | cons other pieces =>
        rw [List.intercalate_cons_cons, List.length_append, List.length_append,
          List.length_singleton]
        have hlength : (piece :: other :: pieces).length = (other :: pieces).length + 1 := rfl
        omega
  have hle := hjoin _ h
  rwa [List.intercalate_splitOn] at hle

end Columns

/-! ## ASCII -/

/-- Python on ASCII. -/
def Python.ascii : Python where
  decode bytes := bytes.map fun c => Char.ofNat c.toNat
  lower := List.map Char.toLower
  otherDigit _ := false
  int column := some (digitsValue (utf8 column))

theorem utf8_cons (c : Char) (cs : List Char) : utf8 (c :: cs) = String.utf8EncodeChar c ++ utf8 cs :=
  List.flatMap_cons

theorem utf8_append (s s' : List Char) : utf8 (s ++ s') = utf8 s ++ utf8 s' :=
  List.flatMap_append

theorem utf8_ne_nil {s : List Char} (h : s ≠ []) : utf8 s ≠ [] := by
  obtain ⟨c, cs, rfl⟩ := List.exists_cons_of_ne_nil h
  rw [utf8_cons]
  simp

/-- An ASCII character is one byte. -/
theorem utf8_ascii {s : List Char} (h : ∀ c ∈ s, c.toNat < 128) :
    utf8 s = s.map fun c => c.toNat.toUInt8 := by
  induction s with
  | nil => rfl
  | cons c cs ih =>
    have hc : String.utf8EncodeChar c = [c.toNat.toUInt8] := by
      have hlt := h c List.mem_cons_self
      have hsize : c.utf8Size = 1 := by
        rw [Char.utf8Size_eq_one_iff, UInt32.le_iff_toNat_le]
        exact Nat.le_of_lt_succ hlt
      exact String.utf8EncodeChar_eq_singleton hsize
    rw [utf8_cons, hc, ih fun d hd => h d (List.mem_cons_of_mem _ hd)]
    rfl

theorem ascii_inj {c d : Char} (hc : c.toNat < 128) (hd : d.toNat < 128) :
    c.toNat.toUInt8 = d.toNat.toUInt8 ↔ c = d := by
  constructor
  · intro h
    have hnat := congrArg UInt8.toNat h
    simp only [Nat.toUInt8_eq, UInt8.toNat_ofNat'] at hnat
    exact Char.toNat_inj.mp (by omega)
  · rintro rfl
    rfl

theorem mem_utf8_ascii {s : List Char} {c : Char} (hs : ∀ d ∈ s, d.toNat < 128)
    (hc : c.toNat < 128) : c.toNat.toUInt8 ∈ utf8 s ↔ c ∈ s := by
  rw [utf8_ascii hs, List.mem_map]
  constructor
  · rintro ⟨d, hd, heq⟩
    rwa [← (ascii_inj (hs d hd) hc).mp heq]
  · exact fun h => ⟨c, h, rfl⟩

theorem map_ascii_eq_some {o : Option Char} {c : Char} (ho : ∀ d ∈ o, d.toNat < 128)
    (hc : c.toNat < 128) : (o.map fun d => d.toNat.toUInt8) = some c.toNat.toUInt8 ↔ o = some c := by
  cases o with
  | none => simp
  | some d => rw [Option.map_some, Option.some_inj, Option.some_inj, ascii_inj (ho d rfl) hc]

/-! ## Newlines -/

/-- No byte of another character is a newline. -/
theorem newline_mem_utf8EncodeChar {c : Char} (h : newline ∈ String.utf8EncodeChar c) :
    c = '\n' := by
  have hbyte : ∀ n : Nat, n < 256 → newline = UInt8.ofNat n → n = 10 := by
    intro n hn heq
    have hnat : 10 = n % 256 := congrArg UInt8.toNat heq
    omega
  have hhigh : ∀ n : Nat, 128 ≤ n → n < 256 → newline ≠ UInt8.ofNat n := by
    intro n hlow hn heq
    have hten := hbyte n hn heq
    omega
  rw [String.utf8EncodeChar] at h
  split at h
  · next hsmall =>
    have hval : c.toNat = 10 := hbyte c.val.toNat (by omega) (List.mem_singleton.mp h)
    exact Char.toNat_inj.mp hval
  · -- the bytes of a longer character all have the high bit set
    split at h
    · simp only [List.mem_cons, List.not_mem_nil, or_false] at h
      rcases h with h | h
      · exact absurd h (hhigh _ (by omega) (by omega))
      · exact absurd h (hhigh _ (by omega) (by omega))
    · split at h
      · simp only [List.mem_cons, List.not_mem_nil, or_false] at h
        rcases h with h | h | h
        · exact absurd h (hhigh _ (by omega) (by omega))
        · exact absurd h (hhigh _ (by omega) (by omega))
        · exact absurd h (hhigh _ (by omega) (by omega))
      · simp only [List.mem_cons, List.not_mem_nil, or_false] at h
        rcases h with h | h | h | h
        · exact absurd h (hhigh _ (by omega) (by omega))
        · exact absurd h (hhigh _ (by omega) (by omega))
        · exact absurd h (hhigh _ (by omega) (by omega))
        · exact absurd h (hhigh _ (by omega) (by omega))

theorem newline_mem_utf8 {text : List Char} (h : newline ∈ utf8 text) : '\n' ∈ text := by
  obtain ⟨c, hc, hmem⟩ := List.mem_flatMap.mp h
  exact newline_mem_utf8EncodeChar hmem ▸ hc

/-- A line has no newline but its last byte. -/
theorem newline_notMem_dropLast_utf8 {line : List Char} (h : '\n' ∉ line.dropLast) :
    newline ∉ (utf8 line).dropLast := by
  rcases List.eq_nil_or_concat line with rfl | ⟨front, c, rfl⟩
  · exact List.not_mem_nil
  · rw [List.concat_eq_append] at h ⊢
    rw [List.dropLast_concat] at h
    have hc : utf8 [c] ≠ [] := utf8_ne_nil (List.cons_ne_nil c [])
    rw [utf8_append, List.dropLast_append_of_ne_nil hc, List.mem_append, not_or]
    refine ⟨fun hmem => h (newline_mem_utf8 hmem), fun hmem => ?_⟩
    -- a newline is one byte, and that is the last
    have hnewline : c = '\n' := List.mem_singleton.mp
      (newline_mem_utf8 (List.mem_of_mem_dropLast hmem)) |>.symm
    subst hnewline
    exact absurd hmem (by decide)

/-! ## Line by line -/

theorem pyLines_flatten (text : List Char) : (pyLines text).flatten = text := by
  induction text with
  | nil => rfl
  | cons c cs ih =>
    rw [pyLines]
    split
    · next hc => rw [List.flatten_cons, ih, hc, List.singleton_append]
    · split
      · next hnil =>
        rw [hnil] at ih
        rw [← ih]
        rfl
      · next line lines hlines =>
        rw [hlines] at ih
        rw [← ih]
        rfl

/-- A line has at least its end or a character. -/
theorem nil_not_mem_pyLines (text : List Char) : [] ∉ pyLines text := by
  induction text with
  | nil => exact List.not_mem_nil
  | cons c cs ih =>
    rw [pyLines]
    split
    · simpa using ih
    · split
      · simp
      · next line lines hlines =>
        rw [hlines] at ih
        simpa using fun h => ih (List.mem_cons_of_mem _ h)

/-- Only the last line may lack its end. -/
theorem pyLines_ended (text : List Char) :
    (pyLines text).Pairwise fun line _ => line.getLast? = some '\n' := by
  induction text with
  | nil => exact List.Pairwise.nil
  | cons c cs ih =>
    rw [pyLines]
    split
    · exact List.pairwise_cons.mpr ⟨fun _ _ => rfl, ih⟩
    · split
      · exact List.pairwise_singleton _ _
      · next line lines hlines =>
        rw [hlines] at ih
        obtain ⟨hhead, htail⟩ := List.pairwise_cons.mp ih
        refine List.pairwise_cons.mpr ⟨fun other hother => ?_, htail⟩
        rw [List.getLast?_cons, hhead other hother]
        rfl

/-- A line without an end has no newline. -/
theorem newline_not_mem_of_open {line : List Char} (hinner : '\n' ∉ line.dropLast)
    (hopen : line.getLast? ≠ some '\n') : '\n' ∉ line := by
  rcases List.eq_nil_or_concat line with rfl | ⟨front, c, rfl⟩
  · exact List.not_mem_nil
  · rw [List.concat_eq_append] at hinner hopen ⊢
    rw [List.dropLast_concat] at hinner
    rw [List.getLast?_concat] at hopen
    rw [List.mem_append, List.mem_singleton, not_or]
    exact ⟨hinner, fun hc => hopen (congrArg some hc.symm)⟩

/-- A line has no end but its last character. -/
theorem newline_not_mem_dropLast (text : List Char) :
    ∀ line ∈ pyLines text, '\n' ∉ line.dropLast := by
  induction text with
  | nil => exact fun line hline => absurd hline List.not_mem_nil
  | cons c cs ih =>
    intro line hline
    rw [pyLines] at hline
    split at hline
    · rcases List.mem_cons.mp hline with rfl | hline
      · exact List.not_mem_nil
      · exact ih line hline
    · -- a character in front of a line, if there is one behind it
      next hc =>
      cases hlines : pyLines cs with
      | nil =>
        rw [hlines] at hline
        rw [List.mem_singleton.mp hline]
        exact List.not_mem_nil
      | cons other lines =>
        rw [hlines] at ih hline
        rcases List.mem_cons.mp hline with rfl | hline
        · cases other with
          | nil => exact List.not_mem_nil
          | cons d ds =>
            rw [List.dropLast_cons_cons, List.mem_cons, not_or]
            exact ⟨Ne.symm hc, ih _ List.mem_cons_self⟩
        · exact ih line (List.mem_cons_of_mem _ hline)

theorem endsInNewline_utf8 {line : List Char} (h : line.getLast? = some '\n') :
    EndsInNewline (utf8 line) := by
  obtain ⟨front, rfl⟩ := List.getLast?_eq_some_iff.mp h
  right
  rw [utf8]
  rw [List.flatMap_append, List.flatMap_singleton, List.getLast?_append]
  rfl

theorem pyLines_single {text : List Char} (h : '\n' ∉ text) :
    pyLines (text ++ ['\n']) = [text ++ ['\n']] := by
  induction text with
  | nil => rfl
  | cons c text ih =>
    have hc : c ≠ '\n' := fun heq => h (heq ▸ List.mem_cons_self)
    rw [List.cons_append, pyLines, if_neg hc, ih fun hmem => h (List.mem_cons_of_mem _ hmem)]

/-- What does not mind being cut behind the end of a line is made of the lines one by one. -/
theorem make_flatten {β : Type} {make : List Char → List β} (hnil : make [] = [])
    (hended : ∀ line back, line.getLast? = some '\n' → make (line ++ back) = make line ++ make back)
    {lines : List (List Char)} (h : lines.Pairwise fun line _ => line.getLast? = some '\n') :
    make lines.flatten = lines.flatMap make := by
  induction lines with
  | nil => exact hnil
  | cons line lines ih =>
    obtain ⟨hline, hrest⟩ := List.pairwise_cons.mp h
    rw [List.flatten_cons, List.flatMap_cons, ← ih hrest]
    cases lines with
    | nil => rw [List.flatten_nil, List.append_nil, hnil, List.append_nil]
    | cons other lines => exact hended line _ (hline other List.mem_cons_self)

/-- Lines that are ended are loaded one by one. -/
theorem textRows_flatten (now : UInt32) {lines : List (List Char)}
    (h : lines.Pairwise fun line _ => line.getLast? = some '\n') :
    textRows now lines.flatten = lines.flatMap (textRows now) := by
  refine make_flatten rfl (fun line back hline => ?_) h
  rw [textRows, utf8, List.flatMap_append]
  exact rowsOf_append now _ (endsInNewline_utf8 hline)

/-- **The loader takes a text line by line.** -/
theorem textRows_eq_flatMap (now : UInt32) (text : List Char) :
    textRows now text = (pyLines text).flatMap (textRows now) := by
  rw [← textRows_flatten now (pyLines_ended text), pyLines_flatten]

theorem pyLines_append {front : List Char} (back : List Char)
    (h : front = [] ∨ front.getLast? = some '\n') :
    pyLines (front ++ back) = pyLines front ++ pyLines back := by
  induction front with
  | nil => rfl
  | cons c cs ih =>
    have hrest : cs = [] ∨ cs.getLast? = some '\n' := by
      rw [List.getLast?_cons] at h
      cases hcs : cs.getLast? with
      | none => exact Or.inl (List.getLast?_eq_none_iff.mp hcs)
      | some d =>
        rw [hcs] at h
        exact Or.inr (h.resolve_left (List.cons_ne_nil c cs))
    rw [List.cons_append, pyLines, pyLines]
    split
    · rw [ih hrest, List.cons_append]
    · next hc =>
      -- a line goes on, so there is more before its end
      have hcs : cs ≠ [] := by
        rintro rfl
        exact hc (Option.some.inj (h.resolve_left (List.cons_ne_nil c [])))
      rw [ih hrest]
      cases hlines : pyLines cs with
      | nil =>
        have hflat := pyLines_flatten cs
        rw [hlines] at hflat
        exact absurd hflat.symm hcs
      | cons line lines => rfl

/-- Python's lines are pieces of the loader's. -/
theorem pyLines_universalNewlines (text : List Char) :
    pyLines (universalNewlines text) =
      (pyLines text).flatMap fun line => pyLines (universalNewlines line) := by
  have hended : ∀ line back : List Char, line.getLast? = some '\n' →
      pyLines (universalNewlines (line ++ back)) =
        pyLines (universalNewlines line) ++ pyLines (universalNewlines back) := by
    intro line back hline
    rw [universalNewlines, List.map_append]
    refine pyLines_append _ (Or.inr ?_)
    rw [List.getLast?_map, hline]
    rfl
  have hcut := @make_flatten _ (fun text => pyLines (universalNewlines text)) rfl hended _
    (pyLines_ended text)
  rwa [pyLines_flatten] at hcut

end Nyet
