import Nyet.Blocklist.Text

/-!
# Lines of `B` rows

Both `clean_blocklist.py` and `review_tool.py` write lines of eight columns that begin with
`B`. `BlockLine.Plain.textRows` says when such a line is loaded as the row it spells.
-/

namespace Nyet

/-- The path of a domain. -/
def pathOf (domain : List Char) : List Label := normalise (utf8 domain)

/-- A domain is below what it ends with. -/
theorem pathOf_of_suffix {domain root : List Char} (h : '.' :: root <:+ domain) :
    pathOf root <+: pathOf domain := by
  obtain ⟨front, rfl⟩ := h
  have hdot : utf8 (front ++ '.' :: root) = utf8 front ++ dot :: utf8 root := by
    rw [utf8_append, utf8_cons]
    rfl
  have hlower : (utf8 front ++ dot :: utf8 root).map lowerByte =
      (utf8 front).map lowerByte ++ dot :: (utf8 root).map lowerByte := by
    rw [List.map_append, List.map_cons]
    rfl
  unfold pathOf normalise labelsRtl
  rw [hdot, hlower, pieces_append_dot, List.reverse_append]
  exact (List.prefix_append _ _).take maxLabels

/-! ## Printable text -/

/-- A character that is one byte, and none that ends a line or a column. -/
def Printable (c : Char) : Prop := 32 ≤ c.toNat ∧ c.toNat < 127

instance (c : Char) : Decidable (Printable c) := inferInstanceAs (Decidable (_ ∧ _))

/-- The digits of a number are printable, so a ttl column can neither end a column nor a line. -/
theorem printable_toDigits {n : Nat} {c : Char} (h : c ∈ Nat.toDigits 10 n) : Printable c := by
  have hdigit := Nat.isDigit_of_mem_toDigits (by decide) (by decide) h
  have hrange : 48 ≤ c.toNat ∧ c.toNat ≤ 57 := by
    simpa [Char.isDigit, UInt32.le_iff_toNat_le] using hdigit
  show 32 ≤ c.toNat ∧ c.toNat < 127
  omega

/-- A time stamp is printable too, with its sign if the clock is before the epoch: Python writes the
integer that `time.time()` is cut to. -/
theorem printable_time {t : Int} {c : Char} (h : c ∈ (toString t).toList) : Printable c := by
  rw [Int.toString_eq_repr, Int.repr_eq_if] at h
  split at h
  · rw [Nat.toList_repr] at h
    exact printable_toDigits h
  · rw [String.toList_append, Nat.toList_repr, List.mem_append] at h
    rcases h with h | h
    · obtain rfl : c = '-' := by simpa using h
      exact ⟨by decide, by decide⟩
    · exact printable_toDigits h

/-- It is not empty, and so the columns behind it stay where `strtok` expects them. -/
theorem time_ne_nil (t : Int) : (toString t).toList ≠ [] := by
  rw [Int.toString_eq_repr, Int.repr_eq_if]
  split
  · rw [Nat.toList_repr]
    simp
  · rw [String.toList_append]
    simp

/-- Printable text is printable bytes. -/
theorem utf8_printable {s : List Char} (h : ∀ c ∈ s, Printable c) {b : UInt8} (hb : b ∈ utf8 s) :
    32 ≤ b.toNat ∧ b.toNat < 127 := by
  rw [utf8_ascii fun c hc => Nat.lt_trans (h c hc).2 (by decide)] at hb
  obtain ⟨c, hc, rfl⟩ := List.mem_map.mp hb
  have hrange : 32 ≤ c.toNat ∧ c.toNat < 127 := h c hc
  rw [Nat.toUInt8_eq, UInt8.toNat_ofNat']
  omega

/-- No control byte is in printable text: no tab, no newline, no NUL. -/
theorem not_mem_utf8 {s : List Char} (h : ∀ c ∈ s, Printable c) {b : UInt8} (hb : b.toNat < 32) :
    b ∉ utf8 s := fun hmem => Nat.not_le.mpr hb (utf8_printable h hmem).1

/-! ## Lines -/

/-- The columns of a line the scripts write. -/
structure BlockLine where
  domain : List Char
  flag : Char
  time : Int
  ttl : Nat
  note : List Char

namespace BlockLine

/-- The line, with its end. -/
def text (l : BlockLine) : List Char :=
  "B\t".toList ++ l.domain ++ "\t".toList ++ [l.flag] ++ "\t".toList ++ (toString l.time).toList ++
    "\t".toList ++ (toString l.time).toList ++ "\t1\t".toList ++ Nat.toDigits 10 l.ttl ++
    "\t".toList ++ l.note ++ "\n".toList

/-- The bytes of a line before its end. -/
def body (l : BlockLine) : CStr :=
  [66] ++ tab :: (utf8 l.domain ++ tab :: (utf8 [l.flag] ++ tab :: (utf8 (toString l.time).toList ++
    tab :: (utf8 (toString l.time).toList ++ tab :: ([49] ++ tab ::
      (utf8 (Nat.toDigits 10 l.ttl) ++ tab :: utf8 l.note))))))

/-- The bytes that Python writes are the columns with tabs between them and a newline at the end. -/
theorem utf8_text (l : BlockLine) : utf8 l.text = l.body ++ [newline] := by
  have hfirst : utf8 "B\t".toList = [66, tab] := by decide
  have htab : utf8 "\t".toList = [tab] := by decide
  have hhits : utf8 "\t1\t".toList = [tab, 49, tab] := by decide
  have hlast : utf8 "\n".toList = [newline] := by decide
  unfold text body
  simp only [utf8_append, hfirst, htab, hhits, hlast]
  simp only [List.append_assoc, List.cons_append, List.nil_append]

/-- Every line the scripts write is ended, so what is appended next begins a line of its own. -/
theorem getLast?_text (l : BlockLine) : l.text.getLast? = some '\n' := by
  unfold text
  rw [List.getLast?_append]
  rfl

/-- A line with printable columns and a domain. -/
structure Legible (l : BlockLine) : Prop where
  printable : ∀ c ∈ l.domain ++ l.flag :: l.note, Printable c
  named : l.domain ≠ []

namespace Legible

variable {l : BlockLine}

/-- The domain of a legible line is printable. -/
theorem domain (h : l.Legible) : ∀ c ∈ l.domain, Printable c :=
  fun c hc => h.printable c (List.mem_append_left _ hc)

/-- So is its flag column. -/
theorem flag (h : l.Legible) : ∀ c ∈ [l.flag], Printable c := fun c hc =>
  h.printable c (List.mem_append_right _ (List.mem_singleton.mp hc ▸ List.mem_cons_self))

/-- So is its note. -/
theorem note (h : l.Legible) : ∀ c ∈ l.note, Printable c :=
  fun c hc => h.printable c (List.mem_append_right _ (List.mem_cons_of_mem _ hc))

/-- A legible line is as many bytes as characters, which is what the loader's buffer counts. -/
theorem ascii (h : l.Legible) : ∀ c ∈ l.text, c.toNat < 128 := by
  have hfield : ∀ s : List Char, (∀ c ∈ s, Printable c) → ∀ c ∈ s, c.toNat < 128 :=
    fun s hs c hc => Nat.lt_trans (hs c hc).2 (by decide)
  have hfixed : ∀ s : List Char, (s.all fun c => c.toNat < 128) = true → ∀ c ∈ s, c.toNat < 128 :=
    fun s hs c hc => of_decide_eq_true (List.all_eq_true.mp hs c hc)
  have htab := hfixed "\t".toList (by decide)
  have htime := hfield (toString l.time).toList fun c => printable_time
  have httl := hfield (Nat.toDigits 10 l.ttl) fun c => printable_toDigits
  unfold text
  simp only [List.append_assoc, List.forall_mem_append]
  exact ⟨hfixed _ (by decide), hfield _ h.domain, htab, hfield _ h.flag, htab, htime, htab, htime,
    hfixed _ (by decide), httl, htab, hfield _ h.note, hfixed _ (by decide)⟩

/-- Nothing in it ends the line or the string before its newline does. -/
theorem body (h : l.Legible) : ∀ b ∈ l.body, b ≠ 0 ∧ b ≠ newline := by
  have hfield : ∀ s : List Char, (∀ c ∈ s, Printable c) → ∀ b ∈ utf8 s, b ≠ 0 ∧ b ≠ newline := by
    intro s hs b hb
    have hrange := utf8_printable hs hb
    constructor
    · rintro rfl
      exact absurd hrange.1 (by decide)
    · rintro rfl
      exact absurd hrange.1 (by decide)
  have htime := hfield (toString l.time).toList fun c => printable_time
  have httl := hfield (Nat.toDigits 10 l.ttl) fun c => printable_toDigits
  have htab : tab ≠ 0 ∧ tab ≠ newline := by decide
  rw [BlockLine.body]
  simp only [List.forall_mem_append, List.forall_mem_cons, List.not_mem_nil, false_imp_iff,
    implies_true, and_true]
  exact ⟨by decide, htab, hfield _ h.domain, htab, hfield _ h.flag, htab, htime, htab, htime, htab,
    by decide, htab, httl, htab, hfield _ h.note⟩

/-- There is no newline but at the end. -/
theorem newline_not_mem (h : l.Legible) : '\n' ∉ l.text.dropLast := by
  obtain ⟨front, hfront⟩ := List.getLast?_eq_some_iff.mp l.getLast?_text
  rw [hfront, List.dropLast_concat]
  intro hmem
  -- compared as bytes: the line without its end is the body
  have hbytes : utf8 front ++ [newline] = l.body ++ [newline] := by
    rw [← utf8_text, hfront, utf8_append]
    rfl
  have hnewline : newline ∈ utf8 front := List.mem_flatMap.mpr ⟨'\n', hmem, by decide⟩
  rw [List.append_cancel_right hbytes] at hnewline
  exact (h.body _ hnewline).2 rfl

/-- `load_blocklist` reads its first six columns as they were written, and so its domain and that it
is BLOCKED; the ttl and the note do not matter for that. -/
theorem parseRow_body (h : l.Legible) (now : UInt32) :
    ∃ e : Entry, e.status = .blocked ∧
      parseRow now (l.body ++ [newline]) = some ⟨utf8 l.domain, e⟩ := by
  have hdomain := utf8_ne_nil h.named
  have hne : ∀ field ∈ [[66], utf8 l.domain, utf8 [l.flag], utf8 (toString l.time).toList,
      utf8 (toString l.time).toList, [49]], field ≠ [] := by
    have htime := utf8_ne_nil (time_ne_nil l.time)
    simp only [List.forall_mem_cons]
    exact ⟨by decide, hdomain, utf8_ne_nil (List.cons_ne_nil _ _), htime, htime, by decide,
      fun _ hnil => absurd hnil List.not_mem_nil⟩
  have htab : ∀ field ∈ [[66], utf8 l.domain, utf8 [l.flag], utf8 (toString l.time).toList,
      utf8 (toString l.time).toList, [49]], tab ∉ field := by
    have hfield : ∀ s : List Char, (∀ c ∈ s, Printable c) → tab ∉ utf8 s :=
      fun s hs => not_mem_utf8 hs (by decide)
    have htime := hfield (toString l.time).toList fun c => printable_time
    simp only [List.forall_mem_cons]
    exact ⟨by decide, hfield _ h.domain, hfield _ h.flag, htime, htime, by decide,
      fun _ hnil => absurd hnil List.not_mem_nil⟩
  have hrow := parseRow_columns now
    (utf8 (Nat.toDigits 10 l.ttl) ++ tab :: (utf8 l.note ++ [newline])) hne htab
  refine ⟨_, rfl, Eq.trans (congrArg (parseRow now) ?_) hrow⟩
  rw [BlockLine.body]
  simp only [List.append_assoc, List.cons_append, List.nil_append]

/-- **A line that can be read is loaded as a `B` row** of its domain, or is too long. -/
theorem textRows (h : l.Legible) (now : UInt32) :
    ∃ e : Entry, e.status = .blocked ∧ textRows now l.text =
      if l.text.length ≤ lineBufSize - 1 then [⟨utf8 l.domain, e⟩] else [] := by
  obtain ⟨e, hst, hrow⟩ := h.parseRow_body now
  have hlength : (l.body ++ [newline]).length = l.text.length := by
    have hbytes := congrArg List.length (utf8_ascii h.ascii)
    rw [utf8_text, List.length_map] at hbytes
    exact hbytes
  have hline : newline ∉ (l.body ++ [newline]).dropLast := by
    rw [List.dropLast_concat]
    exact fun hmem => (h.body _ hmem).2 rfl
  have hnul : 0 ∉ l.body ++ [newline] := by
    rw [List.mem_append, List.mem_singleton, not_or]
    exact ⟨fun hmem => (h.body _ hmem).1 rfl, by decide⟩
  have hhead : (l.body ++ [newline]).head? = some 66 := rfl
  -- `fgets` takes the line in one piece if the newline still fits
  have hfits : (l.body ++ [newline]).length < lineBufSize - 1 ∨
      (l.body ++ [newline]).length = lineBufSize - 1 ∧
        (l.body ++ [newline]).getLast? = some newline ↔ l.text.length ≤ lineBufSize - 1 := by
    rw [hlength, List.getLast?_concat]
    simp only [and_true]
    exact Nat.le_iff_lt_or_eq.symm
  refine ⟨e, hst, ?_⟩
  rw [Nyet.textRows]
  rw [utf8_text, rowsOf_oneLine now hline hnul (hhead ▸ by decide), hrow]
  exact if_congr hfits rfl rfl

end Legible

/-- A line that fits the loader's buffer, with printable columns and a domain `radix_insert`
accepts. -/
structure Plain (l : BlockLine) : Prop where
  printable : ∀ c ∈ l.domain ++ l.flag :: l.note, Printable c
  insertable : Insertable (utf8 l.domain)
  fits : l.text.length < lineBufSize - 1

namespace Plain

variable {l : BlockLine}

/-- A domain that `radix_insert` accepts has labels, so it is not empty. -/
theorem legible (h : l.Plain) : l.Legible where
  printable := h.printable
  named := by
    intro hnil
    exact h.insertable.2 (hnil ▸ normalise_nil)

/-- A plain line is ASCII, as its legible one is. -/
theorem ascii (h : l.Plain) : ∀ c ∈ l.text, c.toNat < 128 := h.legible.ascii

/-- **A plain line is loaded as a `B` row** of its domain. -/
theorem textRows (h : l.Plain) (now : UInt32) :
    ∃ e : Entry, e.status = .blocked ∧ textRows now l.text = [⟨utf8 l.domain, e⟩] := by
  obtain ⟨e, hst, hrows⟩ := h.legible.textRows now
  rw [if_pos (Nat.le_of_lt h.fits)] at hrows
  exact ⟨e, hst, hrows⟩

end Plain

end BlockLine

end Nyet
