import Nyet.Blocklist.Learned
import Nyet.Proxy.Decision

/-!
# One query, one log line (`log_query`)

`log_query` prints eight fields into 512 bytes and hands over what fits. What does not fit
is cut off at the end, and the newline with it: the next entry is then glued to this one. The
reason is the matched domain, so a long domain that is matched is in its line twice.
-/

namespace Nyet

/-- `QueryResult` -/
inductive QueryResult where
  | blocked
  | allowed
  | review
  | forwarded
  | cached
  | error
  deriving DecidableEq, Repr

/-- `result_c` -/
def QueryResult.toChar : QueryResult → UInt8
  | .blocked => 66
  | .allowed => 65
  | .review => 82
  | .forwarded => 70
  | .cached => 67
  | .error => 69

/-- `source_c` -/
def MatchSource.toChar : MatchSource → UInt8
  | .hashExact => 101
  | .hashSuffix => 115
  | .heuristic => 104
  | .none => 110

/-- `INET_ADDRSTRLEN` of `ws2ipdef.h` -/
def inetAddrstrlen : Nat := 22

/-- `sizeof(log_entry)` -/
def logEntrySize : Nat := 512

/-- `%lld` -/
def decimalInt (n : Int) : CStr := if n < 0 then 45 :: decimal n.natAbs else decimal n.natAbs

/-- `"%lld\t%s\t%s\t%u\t%c\t%c\t%s\t%lld\n"` -/
def logLine (now : Int) (safeIp safeDomain : CStr) (qtype : UInt16) (resultC sourceC : UInt8)
    (reason : CStr) (latencyUs : Int) : CStr :=
  rowText [decimalInt now, safeIp, safeDomain, decimal qtype.toNat, [resultC], [sourceC], reason,
    decimalInt latencyUs]

/-- `snprintf(buf, size, "%s", text)`: what is in the buffer, and the return value. -/
def snprintf (size : Nat) (text : CStr) : CStr × Nat := (text.take (size - 1), text.length)

/-- `log_query`: what it hands to `append_log`, if anything. The reason may be NULL. -/
def logQuery (logFile : Bool) (now : Int) (clientIp domain : CStr) (qtype : UInt16)
    (result : QueryResult) (source : MatchSource) (reason : Option CStr) (latencyUs : Int) :
    Option CStr :=
  if logFile then
    let safeDomain := sanitizeLogField domain maxDomainLen
    let safeIp := sanitizeLogField clientIp (inetAddrstrlen * 2)
    let (logEntry, n) := snprintf logEntrySize
      (logLine now safeIp safeDomain qtype result.toChar source.toChar (reason.getD []) latencyUs)
    if 0 < n then some logEntry else none
  else none

/-- What `inet_ntop` makes of an IPv4 address. -/
def dottedQuad (a b c d : UInt8) : CStr :=
  decimal a.toNat ++ dot :: (decimal b.toNat ++ dot :: (decimal c.toNat ++ dot :: decimal d.toNat))

/-- `score_buf`, with what `%.2f` makes of the score. -/
def scoreBuf (formatted : CStr) : CStr := (snprintf 16 (cstr "score=" ++ formatted)).1

/-- The reasons `process_request` gives for a domain. What `%.2f` prints is printable. -/
inductive PassedReason (domain : CStr) : Option CStr → Prop
  | none : PassedReason domain none
  | malformed : PassedReason domain (some (cstr "malformed"))
  | matched {check : CheckResult} : check.matchedDomain = truncated domain →
      PassedReason domain (some check.matchedDomain)
  | score {formatted : CStr} : (∀ c ∈ formatted, isPrint c = true) →
      PassedReason domain (some (scoreBuf formatted))

/-- Eight fields with seven tabs between them, and a newline at the end which is the only
one. -/
def OneLogLine (entry : CStr) : Prop :=
  ∃ fields : List CStr, fields.length = 8 ∧ (∀ field ∈ fields, tab ∉ field ∧ newline ∉ field) ∧
    entry = rowText fields

/-! ## Fields -/

theorem isPrint_decimalInt {n : Int} {c : UInt8} (h : c ∈ decimalInt n) : isPrint c = true := by
  rw [decimalInt] at h
  split at h
  · rcases List.mem_cons.mp h with rfl | h
    · decide
    · exact isPrint_decimal h
  · exact isPrint_decimal h

/-- What is printable does not end a field. -/
theorem clean_of_isPrint {field : CStr} (h : ∀ c ∈ field, isPrint c = true) :
    tab ∉ field ∧ newline ∉ field :=
  ⟨fun hc => absurd (h _ hc) (by decide), fun hc => absurd (h _ hc) (by decide)⟩

theorem length_decimal_byte : ∀ x : UInt8, (decimal x.toNat).length ≤ 3 :=
  forall_byte (by decide +kernel)

theorem isPrint_dottedQuad {a b c d x : UInt8} (h : x ∈ dottedQuad a b c d) :
    isPrint x = true := by
  rw [dottedQuad] at h
  simp only [List.mem_append, List.mem_cons] at h
  rcases h with h | rfl | h | rfl | h | rfl | h
  all_goals first | exact isPrint_decimal h | decide

/-- An address fits into its buffer. -/
theorem length_dottedQuad (a b c d : UInt8) : (dottedQuad a b c d).length ≤ 15 := by
  have ha := length_decimal_byte a
  have hb := length_decimal_byte b
  have hc := length_decimal_byte c
  have hd := length_decimal_byte d
  rw [dottedQuad]
  simp only [List.length_append, List.length_cons]
  omega

theorem sanitize_dottedQuad (a b c d : UInt8) :
    sanitizeLogField (dottedQuad a b c d) (inetAddrstrlen * 2) = dottedQuad a b c d := by
  have hlen := length_dottedQuad a b c d
  rw [sanitizeLogField, sanitizeLoop_of_isPrint fun x hx => isPrint_dottedQuad hx,
    List.nil_append]
  rw [List.length_nil, inetAddrstrlen]
  omega

/-- `check.matched_domain` is such a reason, wherever the match comes from. -/
theorem checkDomain_passedReason {capacity : Nat} {cache : Option (DnsCache capacity)}
    {tree : RadixTree} {nowNs : UInt64} {now : UInt32} {domain : CStr} {check : CheckResult}
    {rest : Option (DnsCache capacity) × RadixTree}
    (h : checkDomain cache tree nowNs now domain = (check, rest)) (hmatched : check.matched = true) :
    PassedReason domain (some check.matchedDomain) := by
  refine .matched ?_
  rw [checkDomain] at h
  -- out of the cache or out of the tree, the matched domain is the one that was asked for
  split at h
  next result remaining hcached =>
    cases h
    cases cache with
    | none => cases hcached
    | some cache =>
      obtain ⟨hit, -, rfl⟩ := Option.map_eq_some_iff.mp (congrArg Prod.fst hcached)
      rfl
  next remaining _ =>
    rcases hlookup : radixLookup tree now domain with ⟨r, looked⟩
    rw [hlookup] at h
    cases h
    cases hfound : r.matched with
    | true => rw [CheckResult.ofTree, hfound]; rfl
    | false =>
      rw [CheckResult.ofTree, hfound] at hmatched
      cases hmatched

/-- Every reason is printable. -/
theorem PassedReason.isPrint {domain : CStr} {reason : Option CStr}
    (h : PassedReason domain reason) (hdomain : WireName maxDomainLen domain) {c : UInt8}
    (hc : c ∈ reason.getD []) : Nyet.isPrint c = true := by
  cases h with
  | none => cases hc
  | malformed =>
    have hall : (cstr "malformed").all Nyet.isPrint = true := by decide
    exact List.all_eq_true.mp hall c hc
  | matched hcheck =>
    rw [Option.getD_some, hcheck, hdomain.truncated] at hc
    exact hdomain.isPrint hc
  | score hformatted =>
    have hall : (cstr "score=").all Nyet.isPrint = true := by decide
    rcases List.mem_append.mp (List.mem_of_mem_take hc) with hc | hc
    · exact List.all_eq_true.mp hall c hc
    · exact hformatted c hc

/-! ## The line -/

/-- A line and its length. -/
theorem length_logLine (now : Int) (safeIp safeDomain : CStr) (qtype : UInt16)
    (resultC sourceC : UInt8) (reason : CStr) (latencyUs : Int) :
    (logLine now safeIp safeDomain qtype resultC sourceC reason latencyUs).length =
      (decimalInt now).length + safeIp.length + safeDomain.length +
        (decimal qtype.toNat).length + reason.length + (decimalInt latencyUs).length + 10 := by
  simp only [logLine, rowText, tabbed_cons_cons, tabbed_singleton, List.length_append,
    List.length_cons, List.length_nil]
  omega

/-- The fields of a line, if what is printed as `%s` is printable. -/
theorem logLine_fields {safeIp safeDomain reason : CStr} (now latencyUs : Int) (qtype : UInt16)
    (result : QueryResult) (source : MatchSource) (hip : ∀ c ∈ safeIp, isPrint c = true)
    (hdomain : ∀ c ∈ safeDomain, isPrint c = true) (hreason : ∀ c ∈ reason, isPrint c = true) :
    ∀ field ∈ [decimalInt now, safeIp, safeDomain, decimal qtype.toNat, [result.toChar],
      [source.toChar], reason, decimalInt latencyUs], tab ∉ field ∧ newline ∉ field := by
  have hresult : ∀ c ∈ [result.toChar], isPrint c = true := by
    rw [List.forall_mem_singleton]
    cases result <;> decide
  have hsource : ∀ c ∈ [source.toChar], isPrint c = true := by
    rw [List.forall_mem_singleton]
    cases source <;> decide
  simp only [List.forall_mem_cons, List.not_mem_nil, false_implies, implies_true, and_true]
  exact ⟨clean_of_isPrint fun c => isPrint_decimalInt, clean_of_isPrint hip,
    clean_of_isPrint hdomain, clean_of_isPrint fun c => isPrint_decimal,
    clean_of_isPrint hresult, clean_of_isPrint hsource, clean_of_isPrint hreason,
    clean_of_isPrint fun c => isPrint_decimalInt⟩

/-- **A line that fits is one line, and one that does not is none**: its newline is cut
off. -/
theorem oneLogLine_snprintf_iff {size : Nat} {fields : List CStr} (height : fields.length = 8)
    (hfields : ∀ field ∈ fields, tab ∉ field ∧ newline ∉ field) :
    OneLogLine (snprintf size (rowText fields)).1 ↔ (rowText fields).length ≤ size - 1 := by
  constructor
  · rintro ⟨others, -, -, hentry⟩
    by_contra hlong
    -- only the newline was behind the fields, and that is cut off
    have hcut : (snprintf size (rowText fields)).1 = (tabbed fields).take (size - 1) := by
      rw [rowText, List.length_append, List.length_singleton] at hlong
      rw [snprintf, rowText, List.take_append_of_le_length (by omega)]
    have hnewline : newline ∈ (snprintf size (rowText fields)).1 := by
      rw [hentry, rowText]
      exact List.mem_append_right _ List.mem_cons_self
    rw [hcut] at hnewline
    rcases mem_tabbed (List.mem_of_mem_take hnewline) with htab | ⟨field, hfield, hmem⟩
    · exact absurd htab (by decide)
    · exact (hfields field hfield).2 hmem
  · exact fun hfits => ⟨fields, height, hfields, List.take_of_length_le hfits⟩

/-- **When a query is one line of the log**: exactly if the fields of variable length come to
no more than 501 bytes. -/
theorem log_query_one_line_iff {packet domain : CStr} {asked : UInt16}
    (hparsed : parseQuery packet maxDomainLen = some (domain, asked)) {reason : Option CStr}
    (hreason : PassedReason domain reason) (now latencyUs : Int) (a b c d : UInt8)
    (qtype : UInt16) (result : QueryResult) (source : MatchSource) :
    ∃ entry, logQuery true now (dottedQuad a b c d) domain qtype result source reason latencyUs =
        some entry ∧
      (OneLogLine entry ↔
        (decimalInt now).length + (dottedQuad a b c d).length + domain.length +
          (decimal qtype.toNat).length + (reason.getD []).length + (decimalInt latencyUs).length ≤
            501) := by
  have hdomain := parseQuery_wireName hparsed
  have hlength := length_logLine now (dottedQuad a b c d) domain qtype result.toChar source.toChar
    (reason.getD []) latencyUs
  have hquad : ∀ x ∈ dottedQuad a b c d, isPrint x = true := fun x hx => isPrint_dottedQuad hx
  have hfields := logLine_fields now latencyUs qtype result source hquad
    (fun x hx => hdomain.isPrint hx) (fun x hx => hreason.isPrint hdomain hx)
  rw [logQuery, if_pos rfl]
  dsimp only
  rw [sanitize_dottedQuad, hdomain.sanitize]
  refine ⟨_, if_pos (by rw [snprintf, hlength]; omega), ?_⟩
  rw [logLine] at hlength ⊢
  rw [oneLogLine_snprintf_iff rfl hfields, hlength, logEntrySize]
  omega

/-- An ordinary query, blocked. -/
theorem log_query_one_line_blocked :
    let domain := cstr "ads.example.com"
    let quad := dottedQuad 192 168 1 20
    ∃ entry, logQuery true 1700000000 quad domain 1 .blocked .hashSuffix (some domain) 42 =
        some entry ∧
      (OneLogLine entry ↔
        (decimalInt 1700000000).length + quad.length + domain.length +
          (decimal 1).length + ((some domain).getD []).length + (decimalInt 42).length ≤ 501) :=
  @log_query_one_line_iff (queryPacket 1 [cstr "ads", cstr "example", cstr "com"] 1)
    (cstr "ads.example.com") 1 (by decide +kernel) _
    (@PassedReason.matched _ (.ofCache (cstr "ads.example.com") .block 60) rfl)
    1700000000 42 192 168 1 20 1 .blocked .hashSuffix

/-- A domain of 253 bytes, in labels that may be that long. -/
def longLabels : List CStr :=
  [List.replicate 63 97, List.replicate 63 98, List.replicate 63 99, List.replicate 61 100]

/-- It is blocked, and its line loses its end. -/
theorem long_domain_line_cut :
    let domain := [dot].intercalate longLabels
    parseQuery (queryPacket 1 longLabels 1) maxDomainLen = some (domain, 1) ∧
      PassedReason domain (some domain) ∧
      ∃ entry, logQuery true 1700000000 (dottedQuad 192 168 1 20) domain 1 .blocked .hashSuffix
        (some domain) 42 = some entry ∧ ¬ OneLogLine entry := by
  have hparsed : parseQuery (queryPacket 1 longLabels 1) maxDomainLen =
      some ([dot].intercalate longLabels, 1) := by
    decide +kernel
  have hreason : PassedReason ([dot].intercalate longLabels)
      (some (truncated ([dot].intercalate longLabels))) :=
    @PassedReason.matched _ (.ofCache ([dot].intercalate longLabels) .block 60) rfl
  rw [(parseQuery_wireName hparsed).truncated] at hreason
  have hcut : (logQuery true 1700000000 (dottedQuad 192 168 1 20) ([dot].intercalate longLabels) 1
      .blocked .hashSuffix (some ([dot].intercalate longLabels)) 42).any
        (fun entry => !entry.contains newline) = true := by
    decide +kernel
  obtain ⟨entry, hentry, hnone⟩ := (Option.any_eq_true _ _).mp hcut
  refine ⟨hparsed, hreason, entry, hentry, ?_⟩
  rintro ⟨fields, -, -, rfl⟩
  rw [rowText] at hnone
  simp at hnone

end Nyet
