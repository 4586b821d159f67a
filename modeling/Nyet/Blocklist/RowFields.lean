import Nyet.Blocklist.Lines

/-!
# Rows column by column

What a row of tab-separated columns is supposed to say (`Row.Spells`), and what
`load_blocklist` makes of it. The columns are cut off at tabs, so the newline stays
with whichever column is the last one. That does no harm to a column that is
compared by its first character, read as a number or not read at all (the third to
the sixth), and the note is cut off at the line's end if there is a tab before it.
It is left in the domain of a row of two columns and in the seventh column of a row
of seven, which then is neither a ttl nor a clean note.
-/

namespace Nyet

/-- A column: not empty, and no tab, line end or NUL in it. -/
def IsField (field : CStr) : Prop :=
  field ≠ [] ∧ ∀ c ∈ field, c ≠ 0 ∧ c ≠ tab ∧ c ≠ newline ∧ c ≠ carriageReturn

instance (field : CStr) : Decidable (IsField field) :=
  decidable_of_iff (field ≠ [] ∧ (field.all fun c =>
    c ≠ 0 ∧ c ≠ tab ∧ c ≠ newline ∧ c ≠ carriageReturn) = true) (by simp [IsField])

/-- Columns with tabs between them. -/
def tabbed (fields : List CStr) : CStr := [tab].intercalate fields

/-- A row of a file: its columns, and the newline. -/
def rowText (fields : List CStr) : CStr := tabbed fields ++ [newline]

/-! ## What a row says -/

/-- The `ttl` column, if the row has one. -/
def sniffedTtl (fields : List CStr) : Option CStr := fields[6]?.filter isAllDigits

/-- The rest of the row after the last structural column; a note that is not
behind a `ttl` column goes through `note_buf`. -/
def noteText (fields : List CStr) : CStr :=
  if (sniffedTtl fields).isSome then tabbed (fields.drop 7)
  else (tabbed (fields.drop 6)).take (noteBufSize - 1)

/-- **The row is what its columns say.** -/
structure Row.Spells (row : Row) (fields : List CStr) : Prop where
  status : row.entry.status = parseStatus ((fields.headD []).headD 0)
  domain : row.domain = fields.getD 1 []
  ttl : ∀ field, sniffedTtl fields = some field → digitsValue field < 2 ^ 32 →
    row.entry.ttl.toNat = digitsValue field
  noTtl : sniffedTtl fields = none → row.entry.ttl = 0
  note : row.entry.note = if noteText fields = [] then none else some (noteText fields)
  clean : ∀ text, text = row.domain ∨ row.entry.note = some text →
    newline ∉ text ∧ carriageReturn ∉ text

/-- Wherever in a file the row stands, `load_blocklist` inserts what it says. -/
def LoadedAsSpelled (now : UInt32) (fields : List CStr) : Prop :=
  ∀ front back, EndsInNewline front → ∃ row : Row, row.Spells fields ∧
    rowsOf now (some (front ++ rowText fields ++ back)) =
      rowsOf now (some front) ++ row :: rowsOf now (some back)

/-! ## The bytes of a row -/

theorem tabbed_singleton (field : CStr) : tabbed [field] = field := List.intercalate_singleton

theorem tabbed_cons_cons (field other : CStr) (fields : List CStr) :
    tabbed (field :: other :: fields) = field ++ tab :: tabbed (other :: fields) := by
  rw [tabbed, List.intercalate_cons_cons, List.append_assoc]
  rfl

theorem mem_tabbed {fields : List CStr} {c : UInt8} (h : c ∈ tabbed fields) :
    c = tab ∨ ∃ field ∈ fields, c ∈ field := by
  induction fields with
  | nil => cases h
  | cons field fields ih =>
    cases fields with
    | nil =>
      rw [tabbed_singleton] at h
      exact Or.inr ⟨field, List.mem_cons_self, h⟩
    | cons other fields =>
      rw [tabbed_cons_cons, List.mem_append, List.mem_cons] at h
      rcases h with h | h | h
      · exact Or.inr ⟨field, List.mem_cons_self, h⟩
      · exact Or.inl h
      · exact (ih h).imp_right fun ⟨f, hf, hc⟩ => ⟨f, List.mem_cons_of_mem _ hf, hc⟩

/-- A row has no NUL and no line end before the newline. -/
theorem tabbed_clean {fields : List CStr} (h : ∀ field ∈ fields, IsField field) {c : UInt8}
    (hc : c ∈ tabbed fields) : c ≠ 0 ∧ c ≠ newline ∧ c ≠ carriageReturn := by
  rcases mem_tabbed hc with rfl | ⟨field, hfield, hc⟩
  · decide
  · have hall := (h field hfield).2 c hc
    exact ⟨hall.1, hall.2.2⟩

theorem tabbed_ne_nil {field : CStr} {fields : List CStr} (h : IsField field) :
    tabbed (field :: fields) ≠ [] := by
  cases fields with
  | nil =>
    rw [tabbed_singleton]
    exact h.1
  | cons other fields =>
    rw [tabbed_cons_cons]
    exact List.append_ne_nil_of_left_ne_nil h.1 _

theorem IsField.no_tab {field : CStr} (h : IsField field) : tab ∉ field :=
  fun hc => (h.2 tab hc).2.1 rfl

/-! ## Tokens -/

/-- The last token of a string. -/
theorem strtok_last {delims s : CStr} (hne : s ≠ []) (hs : ∀ c ∈ s, delims.contains c = false) :
    strtok delims s = (some s, []) := by
  have htoken := @strtok_token delims s [] hne hs fun d hd => nomatch hd
  rwa [List.append_nil] at htoken

theorem strtok_nil (delims : CStr) : strtok delims [] = (none, []) := rfl

/-- A column with another one behind it. -/
theorem strtok_rowText {field : CStr} (h : IsField field) (other : CStr) (fields : List CStr) :
    strtok [tab] (rowText (field :: other :: fields)) =
      (some field, rowText (other :: fields)) := by
  rw [rowText, tabbed_cons_cons, List.append_assoc, List.cons_append]
  exact strtok_tab h.1 h.no_tab

/-- The last column keeps the newline. -/
theorem strtok_rowText_last {field : CStr} (h : IsField field) :
    strtok [tab] (rowText [field]) = (some (field ++ [newline]), []) := by
  rw [rowText, tabbed_singleton]
  refine strtok_last (by simp) fun c hc => ?_
  have hctab : c ≠ tab := by
    rintro rfl
    rcases List.mem_append.mp hc with hc | hc
    · exact h.no_tab hc
    · exact absurd hc (by decide)
  simpa using hctab

/-- The rest of the line loses it. -/
theorem strtok_rowText_rest {field : CStr} {fields : List CStr}
    (h : ∀ f ∈ field :: fields, IsField f) :
    strtok [carriageReturn, newline] (rowText (field :: fields)) =
      (some (tabbed (field :: fields)), []) := by
  refine @strtok_field _ (tabbed (field :: fields)) [] newline
    (tabbed_ne_nil (h field List.mem_cons_self)) (fun c hc => ?_) (by decide)
  obtain ⟨-, hnewline, hreturn⟩ := tabbed_clean h hc
  simp [hnewline, hreturn]

/-! ## The row a line makes -/

/-- Behind the sixth column there is nothing, one column, or more than one. -/
theorem parseTtlNote_rowText_last {field : CStr} (h : IsField field) :
    parseTtlNote (rowText [field]) = (none, some (field ++ [newline])) := by
  have hdigits : isAllDigits (field ++ [newline]) = false := by
    rw [isAllDigits, List.all_append]
    simp [isDigit, newline]
  rw [parseTtlNote, strtok_rowText_last h]
  simp [hdigits, strtok_nil]

theorem parseTtlNote_rowText {field other : CStr} {fields : List CStr}
    (h : ∀ f ∈ field :: other :: fields, IsField f) :
    parseTtlNote (rowText (field :: other :: fields)) =
      if isAllDigits field then (some field, some (tabbed (other :: fields)))
      else (none, some ((tabbed (field :: other :: fields)).take (noteBufSize - 1))) := by
  rw [parseTtlNote, strtok_rowText (h field List.mem_cons_self)]
  dsimp only
  rw [strtok_rowText_rest fun f hf => h f (List.mem_cons_of_mem _ hf), tabbed_cons_cons]

/-- A row of at least seven columns. -/
theorem parseRow_rowText (now : UInt32) {a b c d e f g : CStr} {rest : List CStr}
    (h : ∀ field ∈ a :: b :: c :: d :: e :: f :: g :: rest, IsField field) :
    parseRow now (rowText (a :: b :: c :: d :: e :: f :: g :: rest)) =
      some ⟨b, ⟨parseStatus (a.headD 0),
        ((parseTtlNote (rowText (g :: rest))).1.map atollU32).getD 0, atoiU32 f, atollU32 e,
        (parseSource (c.headD 0)).toUInt8, 0, (parseTtlNote (rowText (g :: rest))).2⟩⟩ := by
  have hsix : ∀ field ∈ [a, b, c, d, e, f], IsField field := fun field hfield =>
    h field (List.mem_append_left (g :: rest) hfield)
  rw [← parseRow_columns now (rowText (g :: rest)) (fun field hfield => (hsix field hfield).1)
    fun field hfield => (hsix field hfield).no_tab]
  simp only [rowText, tabbed_cons_cons, List.append_assoc, List.cons_append]

/-- A row of two columns: the newline stays with the domain. -/
theorem not_spells_two (now : UInt32) {a b : CStr} (h : ∀ field ∈ [a, b], IsField field)
    {row : Row} (hrow : parseRow now (rowText [a, b]) = some row) : ¬ row.Spells [a, b] := by
  have ha := h a (by simp)
  have hb := h b (by simp)
  simp only [parseRow, strtok_rowText ha, strtok_rowText_last hb, Option.some.injEq] at hrow
  intro hspells
  have hdomain := hspells.domain
  rw [← hrow] at hdomain
  have hlength := congrArg List.length hdomain
  simp at hlength

/-- Three to six columns: the newline stays with a column that no one minds. -/
theorem parseRow_short (now : UInt32) {fields : List CStr} (h : ∀ field ∈ fields, IsField field)
    (hlow : 2 < fields.length) (hhigh : fields.length < 7) :
    ∃ e, parseRow now (rowText fields) = some ⟨fields.getD 1 [], e⟩ ∧
      e.status = parseStatus ((fields.headD []).headD 0) ∧ e.ttl = 0 ∧ e.note = none := by
  -- each column before the last is closed by a tab, the last by the newline
  match fields, hlow, hhigh with
  | [a, b, c], _, _ =>
    simp only [List.forall_mem_cons] at h
    obtain ⟨ha, hb, hc, -⟩ := h
    simp only [parseRow, parseTtlNote, strtok_rowText ha, strtok_rowText hb,
      strtok_rowText_last hc, strtok_nil]
    exact ⟨_, rfl, rfl, rfl, rfl⟩
  | [a, b, c, d], _, _ =>
    simp only [List.forall_mem_cons] at h
    obtain ⟨ha, hb, hc, hd, -⟩ := h
    simp only [parseRow, parseTtlNote, strtok_rowText ha, strtok_rowText hb, strtok_rowText hc,
      strtok_rowText_last hd, strtok_nil]
    exact ⟨_, rfl, rfl, rfl, rfl⟩
  | [a, b, c, d, e], _, _ =>
    simp only [List.forall_mem_cons] at h
    obtain ⟨ha, hb, hc, hd, he, -⟩ := h
    simp only [parseRow, parseTtlNote, strtok_rowText ha, strtok_rowText hb, strtok_rowText hc,
      strtok_rowText hd, strtok_rowText_last he, strtok_nil]
    exact ⟨_, rfl, rfl, rfl, rfl⟩
  | [a, b, c, d, e, f], _, _ =>
    simp only [List.forall_mem_cons] at h
    obtain ⟨ha, hb, hc, hd, he, hf, -⟩ := h
    simp only [parseRow, parseTtlNote, strtok_rowText ha, strtok_rowText hb, strtok_rowText hc,
      strtok_rowText hd, strtok_rowText he, strtok_rowText_last hf, strtok_nil]
    exact ⟨_, rfl, rfl, rfl, rfl⟩

theorem IsField.clean {field : CStr} (h : IsField field) :
    newline ∉ field ∧ carriageReturn ∉ field :=
  ⟨fun hc => (h.2 _ hc).2.2.1 rfl, fun hc => (h.2 _ hc).2.2.2 rfl⟩

theorem noteText_clean {fields : List CStr} (h : ∀ field ∈ fields, IsField field) :
    newline ∉ noteText fields ∧ carriageReturn ∉ noteText fields := by
  have hmem : ∀ c ∈ noteText fields, ∃ n, c ∈ tabbed (fields.drop n) := by
    intro c hc
    rw [noteText] at hc
    split at hc
    · exact ⟨7, hc⟩
    · exact ⟨6, List.mem_of_mem_take hc⟩
  have hdrop : ∀ n, ∀ field ∈ fields.drop n, IsField field :=
    fun n field hfield => h field (List.mem_of_mem_drop hfield)
  constructor
  · intro hc
    obtain ⟨n, hn⟩ := hmem _ hc
    exact (tabbed_clean (hdrop n) hn).2.1 rfl
  · intro hc
    obtain ⟨n, hn⟩ := hmem _ hc
    exact (tabbed_clean (hdrop n) hn).2.2 rfl

theorem spells_short (now : UInt32) {fields : List CStr} (h : ∀ field ∈ fields, IsField field)
    (hlow : 2 < fields.length) (hhigh : fields.length < 7) :
    ∃ row, parseRow now (rowText fields) = some row ∧ row.Spells fields := by
  obtain ⟨e, hrow, hstatus, httl, hnote⟩ := parseRow_short now h hlow hhigh
  have hno : sniffedTtl fields = none := by
    rw [sniffedTtl, List.getElem?_eq_none (by omega)]
    rfl
  have hrest : noteText fields = [] := by
    rw [noteText, hno, List.drop_eq_nil_of_le (by omega : fields.length ≤ 6)]
    rfl
  have hdomain : IsField (fields.getD 1 []) := by
    rw [List.getD_eq_getElem?_getD, List.getElem?_eq_getElem (by omega : 1 < fields.length)]
    exact h _ (List.getElem_mem _)
  refine ⟨_, hrow, ⟨hstatus, rfl, fun f hf => ?_, fun _ => httl, ?_, ?_⟩⟩
  · rw [hno] at hf
    cases hf
  · rw [if_pos hrest]
    exact hnote
  · rintro text (rfl | htext)
    · exact hdomain.clean
    · rw [show (⟨fields.getD 1 [], e⟩ : Row).entry.note = none from hnote] at htext
      cases htext

/-- Seven columns: the newline stays with the last one. -/
theorem not_spells_seven (now : UInt32) {fields : List CStr}
    (h : ∀ field ∈ fields, IsField field) (hlen : fields.length = 7) {row : Row}
    (hrow : parseRow now (rowText fields) = some row) : ¬ row.Spells fields := by
  match fields, hlen with
  | [a, b, c, d, e, f, g], _ =>
    rw [parseRow_rowText now h, parseTtlNote_rowText_last (h g (by simp))] at hrow
    intro hspells
    have hnote : row.entry.note = some (g ++ [newline]) := by
      rw [← Option.some.inj hrow]
    exact (hspells.clean _ (Or.inr hnote)).1 (by simp)

/-- Eight columns and more: what is behind the structural columns is cut off at the
line's end. -/
theorem spells_long (now : UInt32) {fields : List CStr} (h : ∀ field ∈ fields, IsField field)
    (hlen : 7 < fields.length) :
    ∃ row, parseRow now (rowText fields) = some row ∧ row.Spells fields := by
  match fields, hlen with
  | a :: b :: c :: d :: e :: f :: g :: k :: rest, _ =>
    have hclean := noteText_clean h
    have hb := h b (by simp)
    have htail : ∀ field ∈ g :: k :: rest, IsField field := fun field hfield =>
      h field (List.mem_append_right [a, b, c, d, e, f] hfield)
    have hfield : sniffedTtl (a :: b :: c :: d :: e :: f :: g :: k :: rest) =
        if isAllDigits g then some g else none := by
      show (some g).filter isAllDigits = _
      rw [Option.filter_some]
    refine ⟨_, parseRow_rowText now h, ?_⟩
    rw [parseTtlNote_rowText htail]
    -- seven structural columns if the seventh is digits, six otherwise; the note is all that is
    -- left
    by_cases hdigits : isAllDigits g = true
    · rw [if_pos hdigits] at hfield
      have hnote : noteText (a :: b :: c :: d :: e :: f :: g :: k :: rest) =
          tabbed (k :: rest) := by
        rw [noteText, hfield]
        rfl
      have hne : tabbed (k :: rest) ≠ [] := tabbed_ne_nil (htail k (by simp))
      rw [if_pos hdigits]
      refine ⟨rfl, rfl, fun field hf hfits => ?_, fun hno => ?_, ?_, ?_⟩
      · rw [hfield] at hf
        cases hf
        exact (atollU32_toNat hdigits).mpr hfits
      · rw [hfield] at hno
        cases hno
      · rw [hnote, if_neg hne]
      · rintro text (rfl | htext)
        · exact hb.clean
        · cases htext
          rw [hnote] at hclean
          exact hclean
    · rw [if_neg hdigits] at hfield
      have hnote : noteText (a :: b :: c :: d :: e :: f :: g :: k :: rest) =
          (tabbed (g :: k :: rest)).take (noteBufSize - 1) := by
        rw [noteText, hfield]
        rfl
      have hne : (tabbed (g :: k :: rest)).take (noteBufSize - 1) ≠ [] := by
        rw [ne_eq, List.take_eq_nil_iff, not_or]
        exact ⟨by decide, tabbed_ne_nil (htail g (by simp))⟩
      rw [if_neg hdigits]
      refine ⟨rfl, rfl, fun field hf => ?_, fun _ => rfl, ?_, ?_⟩
      · rw [hfield] at hf
        cases hf
      · rw [hnote, if_neg hne]
      · rintro text (rfl | htext)
        · exact hb.clean
        · cases htext
          rw [hnote] at hclean
          exact hclean

/-! ## The row in its file -/

/-- A row that fits the buffer and is not a comment is parsed, wherever it stands. -/
theorem loadedAsSpelled_iff (now : UInt32) {fields : List CStr}
    (h : ∀ field ∈ fields, IsField field) (hlen : (tabbed fields).length ≤ 1022)
    (hhead : (tabbed fields).head? ≠ some 35) :
    LoadedAsSpelled now fields ↔
      ∃ row, parseRow now (rowText fields) = some row ∧ row.Spells fields := by
  have hend : EndsInNewline (rowText fields) := Or.inr List.getLast?_concat
  have hline : newline ∉ (rowText fields).dropLast := by
    rw [rowText, List.dropLast_concat]
    exact fun hc => (tabbed_clean h hc).2.1 rfl
  have hnul : 0 ∉ rowText fields := by
    rw [rowText, List.mem_append, List.mem_singleton, not_or]
    exact ⟨fun hc => (tabbed_clean h hc).1 rfl, by decide⟩
  have hfirst : (rowText fields).head? ≠ some carriageReturn ∧ (rowText fields).head? ≠ some 35 := by
    rw [rowText]
    cases htext : tabbed fields with
    | nil => decide
    | cons c cs =>
      rw [htext] at hhead
      refine ⟨fun hc => ?_, hhead⟩
      have hmem : carriageReturn ∈ tabbed fields := by
        rw [htext, ← Option.some.inj hc]
        exact List.mem_cons_self
      exact (tabbed_clean h hmem).2.2 rfl
  have hrows : rowsOf now (some (rowText fields)) = (parseRow now (rowText fields)).toList := by
    rw [rowsOf_oneLine now hline hnul hfirst, if_pos]
    rw [rowText, List.length_append, List.length_singleton]
    rcases Nat.lt_or_eq_of_le hlen with hlt | heq
    · exact Or.inl (Nat.succ_lt_succ hlt)
    · exact Or.inr ⟨congrArg (· + 1) heq, List.getLast?_concat⟩
  -- alone in its file the row is all that is read; elsewhere it is one of several
  constructor
  · intro hloaded
    obtain ⟨row, hspells, hrow⟩ := hloaded [] [] (Or.inl rfl)
    rw [List.nil_append, List.append_nil, hrows] at hrow
    refine ⟨row, ?_, hspells⟩
    cases hparse : parseRow now (rowText fields) with
    | none =>
      rw [hparse] at hrow
      cases hrow
    | some other =>
      rw [hparse] at hrow
      cases hrow
      rfl
  · rintro ⟨row, hrow, hspells⟩ front back hfront
    refine ⟨row, hspells, ?_⟩
    rw [List.append_assoc, rowsOf_append now _ hfront, rowsOf_append now _ hend, hrows, hrow]
    rfl

/-- **When a row is loaded as it is spelled**: unless it has two columns or seven. -/
theorem row_loaded_as_spelled_iff (now : UInt32) {fields : List CStr}
    (hcount : 2 ≤ fields.length) (h : ∀ field ∈ fields, IsField field)
    (hlen : (tabbed fields).length ≤ 1022) (hhead : (tabbed fields).head? ≠ some 35) :
    LoadedAsSpelled now fields ↔ fields.length ≠ 2 ∧ fields.length ≠ 7 := by
  rw [loadedAsSpelled_iff now h hlen hhead]
  constructor
  · rintro ⟨row, hrow, hspells⟩
    refine ⟨fun htwo => ?_, fun hseven => not_spells_seven now h hseven hrow hspells⟩
    match fields, htwo with
    | [a, b], _ => exact not_spells_two now h hrow hspells
  · rintro ⟨htwo, hseven⟩
    by_cases hshort : fields.length < 7
    · exact spells_short now h (by omega) hshort
    · exact spells_long now h (by omega)

/-- A row with all its columns. -/
theorem row_loaded_as_spelled_full :
    LoadedAsSpelled 0 [cstr "B", cstr "ads.example", cstr "S", cstr "1", cstr "2", cstr "3",
      cstr "60", cstr "note"] :=
  (row_loaded_as_spelled_iff 0 (by decide) (by decide) (by decide) (by decide)).mpr (by decide)

/-- `B<tab>ads.example`: the domain loaded ends in a newline. -/
theorem short_row_keeps_newline : ¬ LoadedAsSpelled 0 [cstr "B", cstr "ads.example"] := by
  intro h
  obtain ⟨row, hspells, hrow⟩ := h [] [] (Or.inl rfl)
  have hread : (rowsOf 0 (some (rowText [cstr "B", cstr "ads.example"]))).map (·.domain) =
      [cstr "ads.example\n"] := by decide
  rw [List.nil_append, List.append_nil] at hrow
  rw [hrow] at hread
  have hdomain : row.domain = cstr "ads.example\n" := (List.cons.inj hread).1
  rw [hspells.domain] at hdomain
  exact absurd hdomain (by decide)

end Nyet
