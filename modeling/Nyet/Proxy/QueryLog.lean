import Nyet.Bytes
import Nyet.Lib.Run

/-!
# The query log (`LogBuffer`)

`append_log` collects entries in memory. Three places print the buffer, as a string up to
its terminator: `append_log` itself when there is no room left, `flush_log_if_stale` when
the entries are old, and `proxy_destroy` at the end. The first two then set the length of the
buffer back, but not its terminator; the next entry does that.

So what is pending (`QueryLog.pending`) and what would be printed are two things, and
`log_complete_iff` says exactly when they are the same at the end.
-/

namespace Nyet

/-- `LOG_FLUSH_INTERVAL_SECONDS` -/
def logFlushIntervalSeconds : Int := 60

/-- `LogBuffer`; `data` is all of its memory. -/
structure LogBuffer where
  data : CStr
  capacity : Nat
  length : Nat
  lastFlushTime : Int
  deriving DecidableEq, Repr

/-- `init_log_buffer`; `memory` is what `malloc(capacity)` returns, with whatever is in it. -/
def initLogBuffer (memory : CStr) (now : Int) : LogBuffer := ⟨memory, memory.length, 0, now⟩

/-- The buffer of the proxy, and what has been written to its log file. -/
structure QueryLog where
  buffer : LogBuffer
  file : CStr
  deriving DecidableEq, Repr

/-- `fprintf(proxy->log_file, "%s", proxy->log_buffer->data)` -/
def QueryLog.print (s : QueryLog) : QueryLog := { s with file := s.file ++ asCStr s.buffer.data }

/-- The buffer is printed, and what was in it is no longer pending. -/
def QueryLog.flush (s : QueryLog) (now : Int) : QueryLog :=
  { s.print with buffer := { s.buffer with length := 0, lastFlushTime := now } }

/-- The entry and its terminator behind what is pending. -/
def LogBuffer.push (b : LogBuffer) (entry : CStr) : LogBuffer :=
  let length := b.length + entry.length
  { b with data := overwrite (overwrite b.data b.length entry) length [0], length := length }

/-- `append_log` -/
def appendLog (s : QueryLog) (entry : CStr) (now : Int) : QueryLog :=
  let s :=
    if s.buffer.capacity - 128 ≤ s.buffer.length + entry.length then s.flush now else s
  { s with buffer := s.buffer.push entry }

/-- There is something to flush, and it is old. -/
def QueryLog.Stale (s : QueryLog) (now : Int) : Prop :=
  0 < s.buffer.length ∧ logFlushIntervalSeconds ≤ now - s.buffer.lastFlushTime

instance (s : QueryLog) (now : Int) : Decidable (s.Stale now) :=
  inferInstanceAs (Decidable (_ ∧ _))

/-- `flush_log_if_stale`; it reads the clock a second time after the flush. -/
def flushLogIfStale (s : QueryLog) (now flushed : Int) : QueryLog :=
  if s.Stale now then s.flush flushed else s

/-- What `proxy_destroy` does to the log. -/
def destroyLog (s : QueryLog) : QueryLog := s.print

/-- A call of one of the two functions. -/
inductive LogCall where
  | append (entry : CStr) (now : Int)
  | flushIfStale (now flushed : Int)
  deriving DecidableEq, Repr

def QueryLog.step (s : QueryLog) : LogCall → QueryLog
  | .append entry now => appendLog s entry now
  | .flushIfStale now flushed => flushLogIfStale s now flushed

/-- After `proxy_init`. -/
def QueryLog.start (memory : CStr) (now : Int) : QueryLog := ⟨initLogBuffer memory now, []⟩

/-- What a call hands over to be logged. -/
def LogCall.entry : LogCall → CStr
  | .append entry _ => entry
  | .flushIfStale _ _ => []

/-- An entry is a string of fewer than 512 bytes. -/
def LogCall.Short (c : LogCall) : Prop := c.entry.length < 512 ∧ 0 ∉ c.entry

instance (c : LogCall) : Decidable c.Short := inferInstanceAs (Decidable (_ ∧ _))

/-- The call appends an entry, and the terminator with it. -/
def LogCall.appends : LogCall → Bool
  | .append _ _ => true
  | .flushIfStale _ _ => false

/-- **The log is complete and free of duplicates**: after the last flush the file is all the
entries, in order, each once. -/
def LogComplete (memory : CStr) (now : Int) (calls : List LogCall) : Prop :=
  (destroyLog (Lib.run QueryLog.step (.start memory now) calls)).file = calls.flatMap LogCall.entry

/-- An entry is appended after each flush that `flush_log_if_stale` makes. -/
def FlushCovered (s : QueryLog) (c : LogCall) (later : List LogCall) : Prop :=
  match c with
  | .flushIfStale now _ => s.Stale now → later.any LogCall.appends
  | .append _ _ => True

instance (s : QueryLog) (c : LogCall) (later : List LogCall) : Decidable (FlushCovered s c later) := by
  unfold FlushCovered
  split <;> infer_instance

/-- The condition: some entry is appended, or the fresh memory starts with a NUL; and no flush
of `flush_log_if_stale` comes after the last entry. -/
def TerminatorReset (memory : CStr) (now : Int) (calls : List LogCall) : Prop :=
  (calls.any LogCall.appends ∨ memory.head? = some 0) ∧
    Lib.EveryCut QueryLog.step FlushCovered (.start memory now) calls

instance (memory : CStr) (now : Int) (calls : List LogCall) :
    Decidable (TerminatorReset memory now calls) := inferInstanceAs (Decidable (_ ∧ _))

/-! ## The invariant -/

/-- What was appended and not yet flushed. -/
def QueryLog.pending (s : QueryLog) : CStr := s.buffer.data.take s.buffer.length

/-- What would be printed now is what is pending. -/
def QueryLog.Tidy (s : QueryLog) : Prop := asCStr s.buffer.data = s.pending

/-- File and buffer together hold what was logged. -/
structure QueryLog.Holds (s : QueryLog) (logged : CStr) : Prop where
  capacity : 1024 ≤ s.buffer.capacity
  size : s.buffer.data.length = s.buffer.capacity
  room : s.buffer.length < s.buffer.capacity - 128
  logged : s.file ++ s.pending = logged
  tidy : 0 < s.buffer.length → s.Tidy

theorem zero_notMem_asCStr (buf : CStr) : 0 ∉ asCStr buf := by
  intro h
  have hne := List.mem_takeWhile_imp h
  simp at hne

theorem asCStr_append_zero {s : CStr} (h : 0 ∉ s) (rest : CStr) : asCStr (s ++ 0 :: rest) = s := by
  rw [asCStr]
  rw [List.takeWhile_append_of_pos, List.takeWhile_cons_of_neg (by simp), List.append_nil]
  intro c hc
  rw [decide_eq_true_eq]
  rintro rfl
  exact h hc

/-- What is pending has no NUL in it. -/
theorem QueryLog.Holds.zero_notMem {s : QueryLog} {logged : CStr} (h : s.Holds logged) :
    0 ∉ s.pending := by
  rcases Nat.eq_zero_or_pos s.buffer.length with hzero | hpos
  · rw [QueryLog.pending]
    rw [hzero, List.take_zero]
    exact List.not_mem_nil
  · rw [← h.tidy hpos]
    exact zero_notMem_asCStr _

/-- The memory after a push: what was pending, the entry, the terminator. -/
theorem LogBuffer.push_data {b : LogBuffer} {entry : CStr}
    (hfits : b.length + entry.length < b.data.length) :
    ∃ rest, (b.push entry).data = (b.data.take b.length ++ entry) ++ 0 :: rest ∧
      (b.push entry).data.length = b.data.length := by
  have hlength : (b.data.take b.length ++ entry).length = b.length + entry.length := by
    rw [List.length_append, List.length_take, Nat.min_eq_left (by omega)]
  refine ⟨b.data.drop (b.length + entry.length + 1), ?_, ?_⟩
  · unfold LogBuffer.push overwrite
    dsimp only
    rw [List.take_left' hlength, List.length_singleton, ← hlength, List.drop_length_add_append,
      List.drop_drop, hlength, List.append_assoc, List.singleton_append]
  · unfold LogBuffer.push overwrite
    simp only [List.length_append, List.length_take, List.length_drop, List.length_singleton]
    omega

/-- A flush moves what is pending to the file. -/
theorem QueryLog.Holds.flush {s : QueryLog} {logged : CStr} (h : s.Holds logged) (htidy : s.Tidy)
    (now : Int) : (s.flush now).Holds logged where
  capacity := h.capacity
  size := h.size
  room := by
    have hcapacity := h.capacity
    show 0 < s.buffer.capacity - 128
    omega
  logged := by
    show (s.file ++ asCStr s.buffer.data) ++ s.buffer.data.take 0 = logged
    rw [List.take_zero, List.append_nil, htidy]
    exact h.logged
  tidy := fun hpos => absurd hpos (Nat.lt_irrefl 0)

/-- What was printed stands in the buffer still, up to its old terminator. -/
theorem QueryLog.Holds.flush_not_tidy {s : QueryLog} {logged : CStr} (h : s.Holds logged)
    (hpos : 0 < s.buffer.length) (now : Int) : ¬ (s.flush now).Tidy := by
  intro htidy
  have hnil : asCStr s.buffer.data = [] := htidy
  have hpending : s.pending.length = s.buffer.length := by
    have hsize := h.size
    have hroom := h.room
    rw [QueryLog.pending]
    rw [List.length_take]
    omega
  rw [h.tidy hpos] at hnil
  rw [hnil, List.length_nil] at hpending
  omega

/-- A push onto a buffer with room makes the entry pending, and what would be printed what is
pending. -/
theorem QueryLog.Holds.push {s : QueryLog} {logged : CStr} (h : s.Holds logged) {entry : CStr}
    (hentry : 0 ∉ entry) (hroom : s.buffer.length + entry.length < s.buffer.capacity - 128) :
    ({ s with buffer := s.buffer.push entry } : QueryLog).Holds (logged ++ entry) ∧
      ({ s with buffer := s.buffer.push entry } : QueryLog).Tidy := by
  have hsize := h.size
  obtain ⟨rest, hdata, hlength⟩ : ∃ rest, _ ∧ _ :=
    @LogBuffer.push_data s.buffer entry (by omega)
  have hpending : ({ s with buffer := s.buffer.push entry } : QueryLog).pending =
      s.pending ++ entry := by
    have hlen : (s.buffer.data.take s.buffer.length ++ entry).length =
        s.buffer.length + entry.length := by
      rw [List.length_append, List.length_take, Nat.min_eq_left (by omega)]
    show (s.buffer.push entry).data.take (s.buffer.length + entry.length) = _
    rw [hdata, List.take_left' hlen]
    rfl
  -- the terminator goes behind the entry, and neither part has one of its own
  have htidy : ({ s with buffer := s.buffer.push entry } : QueryLog).Tidy := by
    rw [QueryLog.Tidy]
    rw [hpending]
    show asCStr (s.buffer.push entry).data = _
    rw [hdata]
    refine asCStr_append_zero ?_ rest
    intro hmem
    rcases List.mem_append.mp hmem with hold | hnew
    · exact h.zero_notMem hold
    · exact hentry hnew
  refine ⟨⟨h.capacity, hlength.trans hsize, hroom, ?_, fun _ => htidy⟩, htidy⟩
  rw [hpending]
  show s.file ++ (s.pending ++ entry) = _
  rw [← List.append_assoc, h.logged]

/-- **`append_log`** logs its entry, whatever was left behind before. -/
theorem QueryLog.Holds.append {s : QueryLog} {logged : CStr} (h : s.Holds logged) {entry : CStr}
    (hshort : entry.length < 512) (hentry : 0 ∉ entry) (now : Int) :
    (appendLog s entry now).Holds (logged ++ entry) ∧ (appendLog s entry now).Tidy := by
  have hcapacity := h.capacity
  unfold appendLog
  dsimp only
  split
  case isTrue hfull =>
    -- an entry does not fill a buffer by itself, so there was something pending
    have hpos : 0 < s.buffer.length := by omega
    refine (h.flush (h.tidy hpos) now).push hentry ?_
    show 0 + entry.length < s.buffer.capacity - 128
    omega
  case isFalse hroom => exact h.push hentry (Nat.lt_of_not_le hroom)

/-- One call. -/
theorem QueryLog.Holds.step {s : QueryLog} {logged : CStr} (h : s.Holds logged) {c : LogCall}
    (hc : c.Short) : (s.step c).Holds (logged ++ c.entry) := by
  cases c with
  | append entry now => exact (h.append hc.1 hc.2 now).1
  | flushIfStale now flushed =>
    show (flushLogIfStale s now flushed).Holds (logged ++ [])
    rw [List.append_nil]
    rw [flushLogIfStale]
    split
    case isTrue hstale => exact h.flush (h.tidy hstale.1) flushed
    case isFalse => exact h

/-! ## What is left at the end -/

theorem QueryLog.Holds.start {memory : CStr} (hmemory : 1024 ≤ memory.length) (now : Int) :
    (QueryLog.start memory now).Holds [] where
  capacity := hmemory
  size := rfl
  room := by
    show 0 < memory.length - 128
    omega
  logged := rfl
  tidy := fun hpos => absurd hpos (Nat.lt_irrefl 0)

theorem QueryLog.start_tidy {memory : CStr} (hmemory : 1024 ≤ memory.length) (now : Int) :
    (QueryLog.start memory now).Tidy ↔ memory.head? = some 0 := by
  show asCStr memory = [] ↔ _
  cases memory with
  | nil => exact absurd hmemory (by decide)
  | cons c cs =>
    rw [asCStr]
    rw [List.takeWhile_cons, List.head?_cons, Option.some.injEq]
    by_cases hc : c = 0 <;> simp [hc]

/-- **The last flush prints what is pending exactly if a terminator was set** after the last
flush of `flush_log_if_stale`. -/
theorem QueryLog.Holds.tidy_run {s : QueryLog} {logged : CStr} (h : s.Holds logged)
    {calls : List LogCall} (hcalls : ∀ c ∈ calls, c.Short) :
    (Lib.run QueryLog.step s calls).Holds (logged ++ calls.flatMap LogCall.entry) ∧
      ((Lib.run QueryLog.step s calls).Tidy ↔
        (calls.any LogCall.appends ∨ s.Tidy) ∧
          Lib.EveryCut QueryLog.step FlushCovered s calls) := by
  induction calls generalizing s logged with
  | nil =>
    rw [List.flatMap_nil, List.append_nil]
    exact ⟨h, by simp [Lib.EveryCut]⟩
  | cons c calls ih =>
    have hc := hcalls c List.mem_cons_self
    obtain ⟨hholds, htidy⟩ := ih (h.step hc) fun c hc => hcalls c (List.mem_cons_of_mem _ hc)
    rw [Lib.run_cons, List.flatMap_cons, ← List.append_assoc]
    refine ⟨hholds, htidy.trans ?_⟩
    cases c with
    | append entry now =>
      have hnow : (s.step (.append entry now)).Tidy := (h.append hc.1 hc.2 now).2
      simp [Lib.EveryCut, FlushCovered, LogCall.appends, hnow]
    | flushIfStale now flushed =>
      by_cases hstale : s.Stale now
      · -- the flush leaves its text behind, so an entry must come
        have hstep : s.step (.flushIfStale now flushed) = s.flush flushed := if_pos hstale
        have hleft : ¬ (s.step (.flushIfStale now flushed)).Tidy := by
          rw [hstep]
          exact h.flush_not_tidy hstale.1 flushed
        have hbefore := h.tidy hstale.1
        simp [Lib.EveryCut, FlushCovered, LogCall.appends, hleft, hbefore, hstale]
      · have hstep : s.step (.flushIfStale now flushed) = s := if_neg hstale
        simp [Lib.EveryCut, FlushCovered, LogCall.appends, hstep, hstale]

/-- **When the query log is complete and free of duplicates.** For every buffer of at least
1024 bytes and every sequence of calls: exactly if a terminator was set since the last flush
of `flush_log_if_stale`, or since `malloc`. -/
theorem log_complete_iff {memory : CStr} (hmemory : 1024 ≤ memory.length) (now : Int)
    {calls : List LogCall} (hcalls : ∀ c ∈ calls, c.Short) :
    LogComplete memory now calls ↔ TerminatorReset memory now calls := by
  obtain ⟨hholds, htidy⟩ := (QueryLog.Holds.start hmemory now).tidy_run hcalls
  rw [QueryLog.start_tidy hmemory] at htidy
  rw [show TerminatorReset memory now calls ↔ _ from htidy.symm]
  rw [LogComplete, destroyLog, QueryLog.print]
  dsimp only
  have hlogged := hholds.logged
  rw [List.nil_append] at hlogged
  rw [← hlogged, List.append_cancel_left_eq]
  rfl

/-- Cleared memory for a small buffer. -/
def clearedMemory : CStr := List.replicate 1024 0

/-- An entry, and the proxy goes down within a minute. -/
theorem log_complete_once :
    LogComplete clearedMemory 0 [.append (cstr "1\tads.com\n") 5, .flushIfStale 10 10] :=
  (log_complete_iff (by decide +kernel) 0 (by decide +kernel)).mpr (by decide +kernel)

/-- An entry that is flushed a minute later, and nothing more is asked. -/
def quietEvening : List LogCall := [.append (cstr "1\tads.com\n") 5, .flushIfStale 70 70]

/-- The last flush prints the flushed entry a second time. -/
theorem quietEvening_logged_twice : ¬ LogComplete clearedMemory 0 quietEvening := by
  rw [log_complete_iff (by decide +kernel) 0 (by decide +kernel)]
  decide +kernel

end Nyet
