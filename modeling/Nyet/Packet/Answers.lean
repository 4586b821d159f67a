import Nyet.Cache.AnswerCache
import Nyet.Packet.Query

/-!
# Answers: reading them and making them up

`parse_answer_records` walks a reply by offsets; `create_blocked_response` and
`create_cached_answer_response` copy the request and append records to it. Output
buffers are the lists of the bytes written.
-/

namespace Nyet

/-- `BUFFER_SIZE` -/
def bufferSize : Nat := 4096

/-- `DEFAULT_BLOCK_TTL_SECONDS` -/
def defaultBlockTtlSeconds : UInt32 := 60

/-- `ntohs` of the two bytes at an offset. -/
def read16 (packet : CStr) (p : Nat) : UInt16 := be16 (packet.getD p 0) (packet.getD (p + 1) 0)

/-- `ntohl` of the four bytes at an offset. -/
def read32 (packet : CStr) (p : Nat) : UInt32 :=
  (read16 packet p).toUInt32 <<< 16 ||| (read16 packet (p + 2)).toUInt32

/-- `htonl` -/
def wire32 (x : UInt32) : CStr :=
  [(x >>> 24).toUInt8, (x >>> 16).toUInt8, (x >>> 8).toUInt8, x.toUInt8]

/-- `ntohl` undoes `htonl`. -/
theorem high_or_low (x : UInt32) :
    (x >>> 16).toUInt16.toUInt32 <<< 16 ||| x.toUInt16.toUInt32 = x := by
  have hx := x.toNat_lt
  have hhigh : (x.toNat >>> 16 % 2 ^ 16) <<< 16 % 2 ^ 32 = (x.toNat >>> 16) <<< 16 := by
    simp only [Nat.shiftLeft_eq, Nat.shiftRight_eq_div_pow]
    omega
  apply UInt32.toNat_inj.mp
  simp only [UInt32.toNat_or, UInt32.toNat_shiftLeft, UInt16.toNat_toUInt32,
    UInt32.toNat_toUInt16, UInt32.toNat_shiftRight, UInt32.reduceToNat, Nat.reduceMod]
  rw [hhigh, shiftLeft_or_of_lt (Nat.mod_lt _ (by decide)), Nat.shiftRight_eq_div_pow]
  omega

/-- `htonl` is two times `htons`. -/
theorem wire32_eq (x : UInt32) : wire32 x = wire16 (x >>> 16).toUInt16 ++ wire16 x.toUInt16 := by
  have hx := x.toNat_lt
  have hfirst : (x >>> 24).toUInt8 = ((x >>> 16).toUInt16 >>> 8).toUInt8 := by
    apply UInt8.toNat_inj.mp
    simp [Nat.shiftRight_eq_div_pow]
    omega
  have hsecond : (x >>> 16).toUInt8 = (x >>> 16).toUInt16.toUInt8 := by
    apply UInt8.toNat_inj.mp
    simp [Nat.shiftRight_eq_div_pow]
  have hthird : (x >>> 8).toUInt8 = (x.toUInt16 >>> 8).toUInt8 := by
    apply UInt8.toNat_inj.mp
    simp [Nat.shiftRight_eq_div_pow]
    omega
  have hfourth : x.toUInt8 = x.toUInt16.toUInt8 := by
    apply UInt8.toNat_inj.mp
    simp
  rw [wire32, wire16]
  rw [hfirst, hsecond, hthird, hfourth]
  rfl

/-! ## Reading -/

/-- `skip_dns_name` from offset `p`: the offset just past the name; `none` is
NULL. Every round moves forward, so the length of the packet is fuel enough. -/
def skipDnsName (packet : CStr) : Nat → Nat → Option Nat
  | 0, _ => none
  | fuel + 1, p =>
    match packet[p]? with
    | none => none   -- `p < limit` fails
    | some len =>
      if len &&& 0xC0 = 0xC0 then
        if p + 2 ≤ packet.length then some (p + 2) else none
      else if len = 0 then some (p + 1)
      else skipDnsName packet fuel (p + 1 + len.toNat)

/-- The loop over the question section, for so many questions. -/
def skipQuestions (packet : CStr) : Nat → Nat → Option Nat
  | 0, p => some p
  | n + 1, p =>
    match skipDnsName packet (packet.length + 1) p with
    | none => none
    | some p => if packet.length < p + 4 then none else skipQuestions packet n (p + 4)

/-- What the loop over the records changes: `count`, `min_ttl` and
`out->records`. -/
structure RecordScan where
  count : UInt8
  minTtl : UInt32
  records : List CStr

/-- `memcpy(out->records[count], p, n)` -/
def RecordScan.store (s : RecordScan) (rdata : CStr) (ttl : UInt32) : RecordScan :=
  let slot := s.records.getD s.count.toNat []
  { count := s.count + 1
    minTtl := if ttl < s.minTtl then ttl else s.minTtl
    records := s.records.set s.count.toNat (rdata ++ slot.drop rdata.length) }

/-- The loop over the answer section, for so many records. -/
def scanRecords (reply : CStr) (qtype : UInt16) (expectedBytes : UInt8) :
    Nat → Nat → RecordScan → RecordScan
  | 0, _, s => s
  | n + 1, p, s =>
    if answerCacheMaxRecords ≤ s.count then s
    else
      match skipDnsName reply (reply.length + 1) p with
      | none => s
      | some p =>
        if reply.length < p + 10 then s
        else
          let rtype := read16 reply p
          let rclass := read16 reply (p + 2)
          let rttl := read32 reply (p + 4)
          let rdlength := (read16 reply (p + 8)).toNat
          let p := p + 10
          if reply.length < p + rdlength then s
          else
            let s :=
              if rtype = qtype ∧ rclass = 1 ∧ rdlength = expectedBytes.toNat then
                s.store ((reply.drop p).take expectedBytes.toNat) rttl
              else s
            scanRecords reply qtype expectedBytes n (p + rdlength) s

/-- `expected_bytes`: AAAA is 16, A is 4. -/
def expectedBytes (qtype : UInt16) : UInt8 := if qtype = 28 then 16 else 4

/-- `parse_answer_records`: whether it returns true, and `*out`. The record slots
are written to as the reply is walked, also when the walk fails later. -/
def parseAnswerRecords (reply : CStr) (qtype : UInt16) (out : Answer) : Bool × Answer :=
  if reply.length < 12 then (false, out)
  else if reply.getD 3 0 &&& 0x0F ≠ 0 then (false, out)   -- `rcode`
  else
    let qdcount := read16 reply 4
    let ancount := read16 reply 6
    if ancount = 0 then (false, out)
    else
      match skipQuestions reply qdcount.toNat 12 with
      | none => (false, out)
      | some p =>
        let s := scanRecords reply qtype (expectedBytes qtype) ancount.toNat p
          ⟨0, 0xffffffff, out.records⟩
        if s.count = 0 ∨ s.minTtl = 0 ∨ s.minTtl = 0xffffffff then
          (false, { out with records := s.records })
        else (true, ⟨s.records, s.count, expectedBytes qtype, s.minTtl⟩)

theorem scanRecords_count (reply : CStr) (qtype : UInt16) (expectedBytes : UInt8) :
    ∀ (n p : Nat) (s : RecordScan), s.count ≤ answerCacheMaxRecords →
      (scanRecords reply qtype expectedBytes n p s).count ≤ answerCacheMaxRecords
  | 0, _, _, h => h
  | n + 1, p, s, h => by
    rw [scanRecords]
    by_cases hfull : answerCacheMaxRecords ≤ s.count
    · rw [if_pos hfull]
      exact h
    rw [if_neg hfull]
    -- the guard of the loop leaves room for one more
    have hstore : ∀ rdata ttl, (s.store rdata ttl).count ≤ answerCacheMaxRecords := by
      intro rdata ttl
      rw [RecordScan.store, answerCacheMaxRecords] at *
      rw [UInt8.le_iff_toNat_le] at *
      rw [UInt8.toNat_add]
      simp only [UInt8.reduceToNat] at *
      omega
    split
    · exact h
    · split
      · exact h
      · dsimp only
        split
        · exact h
        · refine scanRecords_count reply qtype expectedBytes n _ _ ?_
          split
          · exact hstore _ _
          · exact h

/-- **What is parsed can be cached**: every answer `parse_answer_records` accepts
meets the checks of `answer_cache_insert`, but for the length of the domain. -/
theorem parseAnswerRecords_acceptable {reply : CStr} {qtype : UInt16} {out answer : Answer}
    (h : parseAnswerRecords reply qtype out = (true, answer)) {domain : CStr}
    (hdomain : domain.length ≤ answerCacheMaxDomainLen) : Acceptable domain answer = true := by
  rw [parseAnswerRecords] at h
  split at h
  · cases h
  split at h
  · cases h
  dsimp only at h
  split at h
  · cases h
  split at h
  · cases h
  next p _ =>
    -- the loop never counts past `ANSWER_CACHE_MAX_RECORDS`
    have hmax := scanRecords_count reply qtype (expectedBytes qtype) (read16 reply 6).toNat p
      ⟨0, 0xffffffff, out.records⟩ (UInt8.zero_le)
    generalize scanRecords reply qtype (expectedBytes qtype) (read16 reply 6).toNat p
      ⟨0, 0xffffffff, out.records⟩ = s at h hmax
    by_cases hkept : s.count = 0 ∨ s.minTtl = 0 ∨ s.minTtl = 0xffffffff
    · rw [if_pos hkept] at h
      cases h
    · rw [if_neg hkept] at h
      cases h
      obtain ⟨hcount, httl, -⟩ := not_or.mp hkept |>.imp_right not_or.mp
      have hbytes : expectedBytes qtype ≠ 0 ∧ expectedBytes qtype ≤ answerCacheRecordBytes := by
        rw [expectedBytes]
        split <;> decide
      rw [Acceptable]
      simp only [Bool.and_eq_true, decide_eq_true_eq]
      exact ⟨⟨⟨httl, hdomain⟩, hcount, hmax⟩, hbytes⟩

/-! ## Making up -/

/-- `FLAGS_BE` on the wire. -/
def responseFlags : CStr := [0x81, 0x80]

/-- `name_ptr`, `type`, `class_`, `ttl`, `rdlength` in front of the data of a
record. -/
def recordHeader (type : UInt16) (ttl : UInt32) (rdlength : UInt16) : CStr :=
  [0xc0, 0x0c] ++ wire16 type ++ wire16 1 ++ wire32 ttl ++ wire16 rdlength

/-- `BLOCKED_ANSWER` -/
def blockedAnswer : CStr := recordHeader 1 60 4 ++ [0, 0, 0, 0]

/-- `create_blocked_response` -/
def createBlockedResponse (request : CStr) (ttlSeconds : UInt32) : CStr :=
  let out := overwrite (overwrite request 2 responseFlags) 6 (wire16 1)
  let out := out ++ blockedAnswer
  if ttlSeconds ≠ defaultBlockTtlSeconds then
    overwrite out (request.length + 6) (wire32 ttlSeconds)
  else out

/-- `create_cached_answer_response`; `none` is the return value 0. -/
def createCachedAnswerResponse (request : CStr) (outCapacity : Nat) (qtype : UInt16)
    (answer : Answer) : Option CStr :=
  let perRecord := 2 + 2 + 2 + 4 + 2 + answer.recordBytes.toNat
  if outCapacity < request.length + answer.numRecords.toNat * perRecord then none
  else
    let out := overwrite (overwrite request 2 responseFlags) 6 (wire16 answer.numRecords.toUInt16)
    let records := (List.range answer.numRecords.toNat).map fun i =>
      recordHeader qtype answer.ttlSeconds answer.recordBytes.toUInt16 ++
        (answer.records.getD i []).take answer.recordBytes.toNat
    some (out ++ records.flatten)

end Nyet
