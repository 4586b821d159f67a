import Nyet.Proxy.LogLine

/-!
# `sanitize_log_field` at its buffer

The function once more, as it writes into `out`: every write is checked against the
`out_size` bytes there are (`none` is a write outside of them), the NUL that `snprintf`
writes behind an escape included. `sanitize_log_field_safe` says that none of the four
ways to write a byte leaves the buffer, and what is in it in the end.
-/

namespace Nyet

/-- One byte after another. -/
def putBytes (buf : CStr) (p : Nat) : CStr → Option CStr
  | [] => some buf
  | b :: bytes => do
    let buf ← putByte buf p b
    putBytes buf (p + 1) bytes

/-- `"\\x%02X"` -/
def escapeHex (c : UInt8) : CStr := [92, 120, hexDigit (c / 16), hexDigit (c % 16)]

/-- The loop, with `written` and `out` so far. -/
def sanitizeLoopIn (outSize : Nat) : CStr → Nat → CStr → Option (Nat × CStr)
  | [], written, out => some (written, out)
  | c :: rest, written, out =>
    if outSize ≤ written + 1 then some (written, out)
    else if c = newline then
      if outSize ≤ written + 2 then some (written, out)
      else do
        let out ← putBytes out written [92, 110]
        sanitizeLoopIn outSize rest (written + 2) out
    else if c = carriageReturn then
      if outSize ≤ written + 2 then some (written, out)
      else do
        let out ← putBytes out written [92, 114]
        sanitizeLoopIn outSize rest (written + 2) out
    else if c = tab then
      if outSize ≤ written + 2 then some (written, out)
      else do
        let out ← putBytes out written [92, 116]
        sanitizeLoopIn outSize rest (written + 2) out
    else if isPrint c then do
      let out ← putBytes out written [c]
      sanitizeLoopIn outSize rest (written + 1) out
    else if outSize ≤ written + 4 then some (written, out)
    else do
      -- `snprintf(out + written, 5, ...)` writes its own NUL
      let (text, n) := snprintf 5 (escapeHex c)
      let out ← putBytes out written (text ++ [0])
      sanitizeLoopIn outSize rest (written + n) out

/-- `sanitize_log_field` with `out_size` bytes of `out`: the buffer in the end. -/
def sanitizeLogFieldIn (out field : CStr) : Option CStr := do
  let (written, buf) ← sanitizeLoopIn out.length field 0 out
  putByte buf written 0

/-! ## Writes -/

section

variable {out front : CStr}

/-- A buffer with `text` in front, one byte that may be anything, and behind that what was there
before. -/
def filled (out text : CStr) (old : UInt8) : CStr := text ++ old :: out.drop (text.length + 1)

/-- One more byte, if another one is left behind it. -/
theorem putByte_filled (h : front.length + 1 < out.length) (old b : UInt8) :
    putByte (filled out front old) front.length b =
      some (filled out (front ++ [b]) out[front.length + 1]) := by
  rw [filled, putByte_append, filled, List.drop_eq_getElem_cons h, List.append_assoc,
    List.singleton_append, List.length_append, List.length_singleton]

/-- Some more bytes, if one is left behind them. -/
theorem putBytes_filled {bytes : CStr} (h : front.length + bytes.length < out.length)
    (old : UInt8) :
    ∃ old', putBytes (filled out front old) front.length bytes =
      some (filled out (front ++ bytes) old') := by
  induction bytes generalizing front old with
  | nil =>
    rw [List.append_nil]
    exact ⟨old, rfl⟩
  | cons b bytes ih =>
    rw [List.length_cons] at h
    have hlen : front.length + 1 = (front ++ [b]).length := by
      rw [List.length_append, List.length_singleton]
    have hroom : (front ++ [b]).length + bytes.length < out.length := by
      rw [← hlen]
      omega
    obtain ⟨old', hput⟩ := ih hroom out[front.length + 1]
    rw [← hlen, List.append_assoc, List.singleton_append] at hput
    rw [putBytes, putByte_filled (by omega)]
    exact ⟨old', hput⟩

theorem putBytes_append (buf : CStr) (p : Nat) (bytes bytes' : CStr) :
    putBytes buf p (bytes ++ bytes') =
      (putBytes buf p bytes).bind fun buf => putBytes buf (p + bytes.length) bytes' := by
  induction bytes generalizing buf p with
  | nil => rfl
  | cons b bytes ih =>
    rw [List.cons_append, putBytes, putBytes, List.length_cons]
    cases putByte buf p b with
    | none => rfl
    | some buf =>
      simp only [Option.bind_eq_bind, Option.bind_some]
      rw [ih, Nat.add_assoc, Nat.add_comm 1]

/-- With a NUL of its own behind them, that is the byte which may be anything. -/
theorem putBytes_terminated {bytes : CStr} (h : front.length + bytes.length < out.length)
    (old : UInt8) :
    putBytes (filled out front old) front.length (bytes ++ [0]) =
      some (filled out (front ++ bytes) 0) := by
  obtain ⟨old', hput⟩ := putBytes_filled h old
  rw [putBytes_append, hput, Option.bind_some, putBytes, filled, ← List.length_append,
    putByte_append]
  rfl

end

/-! ## The loop -/

/-- **The loop writes what `sanitizeLoop` says**, and stays in front of the last byte. -/
theorem sanitizeLoopIn_spec {out field : CStr} :
    ∀ {front : CStr}, front.length < out.length → ∀ old : UInt8,
      (sanitizeLoop out.length front field).length < out.length ∧
      ∃ old', sanitizeLoopIn out.length field front.length (filled out front old) =
        some ((sanitizeLoop out.length front field).length,
          filled out (sanitizeLoop out.length front field) old') := by
  induction field with
  | nil => exact fun h old => ⟨h, old, rfl⟩
  | cons c rest ih =>
    intro front h old
    -- bytes that fit are written, and the loop goes on behind them
    have hgo : ∀ bytes : CStr, front.length + bytes.length < out.length →
        (sanitizeLoop out.length (front ++ bytes) rest).length < out.length ∧
        ∃ old', (putBytes (filled out front old) front.length bytes).bind
            (sanitizeLoopIn out.length rest (front.length + bytes.length)) =
          some ((sanitizeLoop out.length (front ++ bytes) rest).length,
            filled out (sanitizeLoop out.length (front ++ bytes) rest) old') := by
      intro bytes hfits
      obtain ⟨old', hput⟩ := putBytes_filled hfits old
      rw [hput, Option.bind_some, ← List.length_append]
      exact ih (by rw [List.length_append]; exact hfits) old'
    have hgoHex : front.length + 4 < out.length →
        (sanitizeLoop out.length (front ++ escapeHex c) rest).length < out.length ∧
        ∃ old', (putBytes (filled out front old) front.length (escapeHex c ++ [0])).bind
            (sanitizeLoopIn out.length rest (front.length + 4)) =
          some ((sanitizeLoop out.length (front ++ escapeHex c) rest).length,
            filled out (sanitizeLoop out.length (front ++ escapeHex c) rest) old') := by
      intro hfits
      have hlen : (front ++ escapeHex c).length = front.length + 4 := List.length_append
      rw [@putBytes_terminated out front (escapeHex c) hfits, Option.bind_some, ← hlen]
      exact ih (by rw [hlen]; exact hfits) 0
    have hstop : front.length < out.length ∧ ∃ old', some (front.length, filled out front old) =
        some (front.length, filled out front old') := ⟨h, old, rfl⟩
    rw [sanitizeLoopIn, sanitizeLoop]
    split
    · exact hstop
    · split
      · split
        · exact hstop
        · exact hgo [92, 110] (Nat.lt_of_not_le ‹_›)
      · split
        · split
          · exact hstop
          · exact hgo [92, 114] (Nat.lt_of_not_le ‹_›)
        · split
          · split
            · exact hstop
            · exact hgo [92, 116] (Nat.lt_of_not_le ‹_›)
          · split
            · exact hgo [c] (Nat.lt_of_not_le ‹_›)
            · split
              · exact hstop
              · exact hgoHex (Nat.lt_of_not_le ‹_›)

/-- **Both models agree**: nothing outside of the buffer is written, and what is written is the
text of `sanitizeLogField` and a NUL. -/
theorem sanitizeLogFieldIn_eq {out : CStr} (hsize : 0 < out.length) (field : CStr) :
    (sanitizeLogField field out.length).length < out.length ∧
    sanitizeLogFieldIn out field = some (filled out (sanitizeLogField field out.length) 0) := by
  obtain ⟨first, rest, rfl⟩ := List.exists_cons_of_length_pos hsize
  obtain ⟨hfits, old, hloop⟩ :=
    @sanitizeLoopIn_spec (first :: rest) field [] hsize first
  refine ⟨hfits, ?_⟩
  have hstart : filled (first :: rest) [] first = first :: rest := rfl
  rw [hstart, List.length_nil] at hloop
  rw [sanitizeLogFieldIn, hloop]
  simp only [Option.bind_eq_bind, Option.bind_some]
  rw [filled, putByte_append]
  rfl

/-- **What reaches a field of the log, of `review.tsv` or of `learned.tsv`.** For every field, in
a buffer of any size but none: `sanitize_log_field` writes the text and a NUL behind it, within
the buffer, and leaves the rest of the buffer alone. The text is printable, so there is no tab,
newline or carriage return in it, and it is the field itself if that is printable and fits. -/
theorem sanitize_log_field_safe (field out : CStr) (hsize : 0 < out.length) :
    let text := sanitizeLogField field out.length
    sanitizeLogFieldIn out field = some (text ++ 0 :: out.drop (text.length + 1)) ∧
      text.length < out.length ∧ (∀ c ∈ text, isPrint c = true) ∧
      (tab ∉ text ∧ newline ∉ text ∧ carriageReturn ∉ text) ∧
      ((∀ c ∈ field, isPrint c = true) → field.length < out.length → text = field) := by
  intro text
  obtain ⟨hfits, hrun⟩ := sanitizeLogFieldIn_eq hsize field
  have hprint : ∀ c ∈ text, isPrint c = true := isPrint_sanitizeLogField
  have habsent : ∀ c, isPrint c = false → c ∉ text := by
    intro c hc hmem
    rw [hprint c hmem] at hc
    cases hc
  refine ⟨hrun, hfits, hprint, ⟨habsent _ (by decide), habsent _ (by decide),
    habsent _ (by decide)⟩, fun hfield hshort => ?_⟩
  show sanitizeLoop out.length [] field = field
  rw [sanitizeLoop_of_isPrint hfield (by rw [List.length_nil, Nat.zero_add]; exact hshort),
    List.nil_append]

/-- Ten bytes: the newline and the byte 7 are escaped, and of the tab nothing is left. -/
theorem sanitize_log_field_safe_ten :
    0 < (List.replicate 10 (0xff : UInt8)).length ∧
    let field := [97, 10, 98, 7, 9, 99]
    let out := List.replicate 10 0xff
    let text := sanitizeLogField field out.length
    sanitizeLogFieldIn out field = some (text ++ 0 :: out.drop (text.length + 1)) ∧
      text.length < out.length ∧ (∀ c ∈ text, isPrint c = true) ∧
      (tab ∉ text ∧ newline ∉ text ∧ carriageReturn ∉ text) ∧
      ((∀ c ∈ field, isPrint c = true) → field.length < out.length → text = field) :=
  ⟨by decide, sanitize_log_field_safe _ _ (by decide)⟩

/-- **A learned line is one line** of eight columns, whatever bytes the domain has. -/
theorem learnedLine_columns (status : Status) (source : EntrySource)
    (firstSeen lastSeen hitCount ttl : UInt32) (domain : CStr) :
    ∃ fields : List CStr, fields.length = 8 ∧
      (∀ field ∈ fields, tab ∉ field ∧ newline ∉ field) ∧
      learnedLine status source firstSeen lastSeen hitCount ttl domain = rowText fields := by
  refine ⟨_, rfl, ?_, learnedLine_eq_rowText status source firstSeen lastSeen hitCount ttl domain⟩
  have hstatus : tab ∉ [statusToChar status] ∧ newline ∉ [statusToChar status] := by
    cases status <;> decide
  have hsource : tab ∉ [sourceToChar source] ∧ newline ∉ [sourceToChar source] := by
    cases source <;> decide
  have hdecimal : ∀ n, tab ∉ decimal n ∧ newline ∉ decimal n := fun n =>
    clean_of_isPrint fun _ => isPrint_decimal
  have hnote : tab ∉ learnedNote ∧ newline ∉ learnedNote := by decide
  rw [learnedFields]
  simp only [List.forall_mem_cons, List.not_mem_nil, false_imp_iff, implies_true, and_true]
  exact ⟨hstatus, clean_of_isPrint isPrint_sanitizeLogField, hsource, hdecimal _, hdecimal _,
    hdecimal _, hdecimal _, hnote⟩

end Nyet
