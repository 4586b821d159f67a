import Nyet.Packet.Message

/-!
# What resolvers make of the synthesised responses

`create_blocked_response` and `create_cached_answer_response` copy the request as a whole,
with the records behind its question, and put the answers at the end. The count of the
additional records stays what it was. A resolver takes the first records behind the
question for the answers, so what it finds there are the additional records of the
request (`decode_answered`), and the response is a well-formed answer exactly if that
makes no difference (`wellAnswered_iff`).
-/

namespace Nyet

open Nyet.Lib.Reader

/-- An answer as the cache stores it: one to eight records of four or sixteen bytes. -/
structure Answer.Storable (answer : Answer) : Prop where
  some : 1 ≤ answer.numRecords
  few : answer.numRecords ≤ answerCacheMaxRecords
  width : answer.recordBytes = 4 ∨ answer.recordBytes = 16
  slots : answer.numRecords.toNat ≤ answer.records.length
  wide : ∀ slot ∈ answer.records, answer.recordBytes.toNat ≤ slot.length

/-- The responses made up for a request, with the records they are to say about `owner`. -/
inductive Synthesised (request : CStr) (owner : List CStr) : CStr → List Dns.Record → Prop
  | blocked (ttlSeconds : UInt32) :
    Synthesised request owner (createBlockedResponse request ttlSeconds)
      [⟨owner, 1, 1, ttlSeconds, [0, 0, 0, 0]⟩]
  | cached {outCapacity : Nat} {qtype : UInt16} {answer : Answer} {response : CStr}
    (storable : answer.Storable)
    (made : createCachedAnswerResponse request outCapacity qtype answer = some response) :
    Synthesised request owner response
      ((answer.records.take answer.numRecords.toNat).map fun slot =>
        ⟨owner, qtype, 1, answer.ttlSeconds, slot.take answer.recordBytes.toNat⟩)

/-- The response answers the query: same ID and question, no error, the records that are
intended as its answers, and the additional records of the query. -/
def WellAnswered (query : Dns.Message) (intended : List Dns.Record) (response : CStr) : Prop :=
  ∃ reply, Dns.decode response = some reply ∧ reply.id = query.id ∧
    reply.questions = query.questions ∧ reply.rcode = 0 ∧ reply.answers = intended ∧
    reply.additional = query.additional

/-! ## The copy of the request -/

/-- The request with the flags and the number of answers of a response. -/
def patched (request : CStr) (answers : UInt16) : CStr :=
  overwrite (overwrite request 2 responseFlags) 6 (wire16 answers)

/-- A packet with a header. -/
theorem exists_header {packet : CStr} (h : 12 ≤ packet.length) :
    ∃ b0 b1 b2 b3 b4 b5 b6 b7 b8 b9 b10 b11 body,
      packet = b0 :: b1 :: b2 :: b3 :: b4 :: b5 :: b6 :: b7 :: b8 :: b9 :: b10 :: b11 :: body := by
  match packet, h with
  | b0 :: b1 :: b2 :: b3 :: b4 :: b5 :: b6 :: b7 :: b8 :: b9 :: b10 :: b11 :: body, _ =>
    exact ⟨b0, b1, b2, b3, b4, b5, b6, b7, b8, b9, b10, b11, body, rfl⟩

/-- Behind the header the copy is the request. -/
theorem extends_patched {request : CStr} (h : 12 ≤ request.length) (answers : UInt16) :
    Extends 12 request (patched request answers) := by
  obtain ⟨b0, b1, b2, b3, b4, b5, b6, b7, b8, b9, b10, b11, body, rfl⟩ := exists_header h
  refine ⟨Nat.le_refl _, fun i hi _ => ?_⟩
  obtain ⟨j, rfl⟩ := Nat.exists_eq_add_of_le' hi
  rfl

theorem length_patched {request : CStr} (h : 12 ≤ request.length) (answers : UInt16) :
    (patched request answers).length = request.length := by
  obtain ⟨b0, b1, b2, b3, b4, b5, b6, b7, b8, b9, b10, b11, body, rfl⟩ := exists_header h
  rfl

/-- In the header the flags and one of the counts are others. -/
theorem header_patched {request : CStr} {h : Dns.Header} (answers : UInt16) (tail : CStr)
    (hheader : Dns.header request 0 = some (h, 12)) :
    Dns.header (patched request answers ++ tail) 0 =
      some ({ h with flags := 0x8180, ancount := answers }, 12) := by
  obtain ⟨-, hlong⟩ := Dns.header_next hheader
  obtain ⟨b0, b1, b2, b3, b4, b5, b6, b7, b8, b9, b10, b11, body, rfl⟩ := exists_header hlong
  cases hheader
  show some ((⟨be16 b0 b1, be16 0x81 0x80, be16 b4 b5, be16 (answers >>> 8).toUInt8 answers.toUInt8,
    be16 b8 b9, be16 b10 b11⟩ : Dns.Header), 12) = _
  have hflags : be16 0x81 0x80 = 0x8180 := by decide
  rw [be16_wire16, hflags]

/-- **What a resolver reads**: the additional records of the request come before the
answers, and the first records are the answers. -/
theorem decode_answered {request : CStr} {query : Dns.Message} {question : Dns.Question}
    {records : List Dns.Record} {answers : UInt16} {tail : CStr}
    (hquery : Dns.decode request = some query) (hquestion : query.questions = [question])
    (hanswers : query.answers = []) (hauthorities : query.authorities = [])
    (htail : Reads (Dns.Named question.name) (many Dns.record answers.toNat) records tail) :
    Dns.decode (patched request answers ++ tail) =
      some ⟨query.id, 0x8180, [question], (query.additional ++ records).take answers.toNat, [],
        (query.additional ++ records).drop answers.toNat⟩ := by
  obtain ⟨h, hheader, hsections⟩ := Dns.decode_eq_some.mp hquery
  obtain ⟨-, hlong⟩ := Dns.header_next hheader
  obtain ⟨hid, -, p1, p2, p3, hqd, han, hns, har⟩ := Dns.sections_eq_some.mp hsections
  -- there is nothing between the question and the additional records
  have hone : h.qdcount.toNat = 1 := by
    rw [← many_length hqd, hquestion]
    rfl
  have hnone : h.ancount.toNat = 0 ∧ h.nscount.toNat = 0 := by
    rw [← many_length han, ← many_length hns, hanswers, hauthorities]
    exact ⟨rfl, rfl⟩
  rw [hnone.1, hanswers] at han
  rw [hnone.2, hauthorities] at hns
  rw [hquestion] at hqd
  cases han
  cases hns
  -- the copy is read as the request is
  have hcopy := extends_patched hlong answers
  have hext := hcopy.trans (.append 12 _ tail)
  have hqd' := (Dns.question_stable.many _).read hext (Nat.le_refl 12) hqd
  have hforward := (Dns.question_stable.many _).forward hqd
  have har' := (Dns.record_stable.many _).read hext hforward har
  -- and so are the answers behind it
  have hnamed : Dns.Named question.name (patched request answers) := by
    rw [hone] at hqd
    obtain ⟨q, next, hq, hrest⟩ := bind_eq_some.mp hqd
    cases hrest
    obtain ⟨hlt, stop, hname⟩ := Dns.question_next hq
    have hle := (Dns.record_stable.many _).forward har
    rw [← length_patched hlong answers] at hle
    exact ⟨Nat.lt_of_lt_of_le hlt hle, stop, Dns.name_stable.read hcopy (Nat.le_refl 12) hname⟩
  have hlast := htail _ [] hnamed
  rw [List.append_nil, length_patched hlong] at hlast
  -- the count of the answers is used up first
  have hall := many_add.mpr ⟨_, _, _, har', hlast, rfl⟩
  rw [Nat.add_comm] at hall
  obtain ⟨first, others, mid, hfirst, hothers, heq⟩ := many_add.mp hall
  have hfirstLength := many_length hfirst
  have htake : (query.additional ++ records).take answers.toNat = first := by
    rw [heq, ← hfirstLength, List.take_left]
  have hdrop : (query.additional ++ records).drop answers.toNat = others := by
    rw [heq, ← hfirstLength, List.drop_left]
  rw [htake, hdrop]
  refine Dns.decode_eq_some.mpr ⟨_, header_patched answers tail hheader,
    Dns.sections_eq_some.mpr ⟨hid, rfl, p1, mid, mid, hqd', hfirst, ?_, hothers⟩⟩
  dsimp only
  rw [hnone.2]
  rfl

/-- A response is a well-formed answer exactly if the answers and the additional records of
the query can be exchanged. -/
theorem wellAnswered_iff {request : CStr} {query : Dns.Message} {question : Dns.Question}
    {records : List Dns.Record} {answers : UInt16} {tail : CStr}
    (hquery : Dns.decode request = some query) (hquestion : query.questions = [question])
    (hanswers : query.answers = []) (hauthorities : query.authorities = [])
    (hcount : records.length = answers.toNat)
    (htail : Reads (Dns.Named question.name) (many Dns.record answers.toNat) records tail) :
    WellAnswered query records (patched request answers ++ tail) ↔
      query.additional ++ records = records ++ query.additional := by
  have hdecode := decode_answered hquery hquestion hanswers hauthorities htail
  constructor
  · rintro ⟨reply, hreply, -, -, -, hfirst, hrest⟩
    rw [hdecode] at hreply
    cases hreply
    dsimp only at hfirst hrest
    rw [← List.take_append_drop answers.toNat (query.additional ++ records), hfirst, hrest]
  · intro hcomm
    have hrcode : (0x8180 : UInt16) &&& 0x000F = 0 := by decide
    refine ⟨_, hdecode, rfl, hquestion.symm, hrcode, ?_, ?_⟩
    · rw [hcomm, ← hcount, List.take_left]
    · rw [hcomm, ← hcount, List.drop_left]

/-! ## The two encoders -/

/-- `BLOCKED_ANSWER` with another TTL is the record with that TTL. -/
theorem createBlockedResponse_eq {request : CStr} (h : 12 ≤ request.length) (ttlSeconds : UInt32) :
    createBlockedResponse request ttlSeconds =
      patched request 1 ++ (recordHeader 1 ttlSeconds 4 ++ [0, 0, 0, 0]) := by
  show (if ttlSeconds ≠ defaultBlockTtlSeconds then
      overwrite (patched request 1 ++ blockedAnswer) (request.length + 6) (wire32 ttlSeconds)
    else patched request 1 ++ blockedAnswer) = _
  split
  case isTrue =>
    rw [← length_patched h 1, overwrite_append]
    rfl
  case isFalse hdefault =>
    rw [not_not.mp hdefault]
    rfl

/-- The records of a cached answer, one behind the other. -/
theorem createCachedAnswerResponse_eq {request : CStr} {outCapacity : Nat} {qtype : UInt16}
    {answer : Answer} {response : CStr} (hslots : answer.numRecords.toNat ≤ answer.records.length)
    (h : createCachedAnswerResponse request outCapacity qtype answer = some response) :
    response = patched request answer.numRecords.toUInt16 ++
      ((answer.records.take answer.numRecords.toNat).map fun slot =>
        recordHeader qtype answer.ttlSeconds answer.recordBytes.toUInt16 ++
          slot.take answer.recordBytes.toNat).flatten := by
  rw [createCachedAnswerResponse] at h
  dsimp only at h
  split at h
  · cases h
  · cases h
    rw [patched]
    congr 2
    refine List.ext_getElem ?_ fun i hi hi' => ?_
    · simp [hslots]
    · simp only [List.length_map, List.length_range] at hi
      simp [Nat.lt_of_lt_of_le hi hslots]

/-- A run of records with one owner, type and TTL, whose data is at the front of slots. -/
theorem records_read (owner : List CStr) (type : UInt16) (ttl : UInt32) {width : UInt16}
    {slots : List CStr} (hwide : ∀ slot ∈ slots, width.toNat ≤ slot.length) :
    Reads (Dns.Named owner) (many Dns.record slots.length)
      (slots.map fun slot => ⟨owner, type, 1, ttl, slot.take width.toNat⟩)
      (slots.map fun slot => recordHeader type ttl width ++ slot.take width.toNat).flatten := by
  refine Reads.many (Dns.Named.grows owner) fun slot hslot => ?_
  refine Dns.record_reads owner type ttl ?_
  rw [List.length_take, Nat.min_eq_left (hwide slot hslot)]

/-- **When a synthesised response is a well-formed answer**: exactly if the additional
records of the query followed by the intended ones are the intended ones followed by the
additional records. -/
theorem synthesised_wellAnswered_iff {request response : CStr} {query : Dns.Message}
    {question : Dns.Question} {intended : List Dns.Record}
    (hquery : Dns.decode request = some query) (hquestion : query.questions = [question])
    (hanswers : query.answers = []) (hauthorities : query.authorities = [])
    (hmade : Synthesised request question.name response intended) :
    WellAnswered query intended response ↔
      query.additional ++ intended = intended ++ query.additional := by
  obtain ⟨h, hheader, -⟩ := Dns.decode_eq_some.mp hquery
  obtain ⟨-, hlong⟩ := Dns.header_next hheader
  cases hmade with
  -- either response is the patched request and a run of records
  | blocked ttlSeconds =>
    have hwide : ∀ slot ∈ [[0, 0, 0, 0]], (4 : UInt16).toNat ≤ (slot : CStr).length := by
      decide
    have hread := records_read question.name 1 ttlSeconds hwide
    rw [createBlockedResponse_eq hlong]
    exact wellAnswered_iff hquery hquestion hanswers hauthorities rfl hread
  | @cached outCapacity qtype answer _ storable made =>
    have hcount : (answer.records.take answer.numRecords.toNat).length =
        answer.numRecords.toUInt16.toNat := by
      rw [List.length_take, Nat.min_eq_left storable.slots]
      rfl
    have hwide : ∀ slot ∈ answer.records.take answer.numRecords.toNat,
        answer.recordBytes.toUInt16.toNat ≤ slot.length :=
      fun slot hslot => storable.wide slot (List.mem_of_mem_take hslot)
    have hread := records_read question.name qtype answer.ttlSeconds hwide
    rw [hcount] at hread
    rw [createCachedAnswerResponse_eq storable.slots made]
    refine wellAnswered_iff hquery hquestion hanswers hauthorities ?_ hread
    rw [List.length_map, hcount]

/-- A query without additional records, answered from the cache. -/
theorem synthesised_wellAnswered_plain :
    WellAnswered ⟨7, 0x0100, [⟨[cstr "example", cstr "com"], 1, 1⟩], [], [], []⟩
      [⟨[cstr "example", cstr "com"], 1, 1, 300, [93, 184, 216, 34]⟩]
      (patched (queryPacket 7 [cstr "example", cstr "com"] 1) 1 ++ recordHeader 1 300 4 ++
        [93, 184, 216, 34]) := by
  have hquery : Dns.decode (queryPacket 7 [cstr "example", cstr "com"] 1) =
      some ⟨7, 0x0100, [⟨[cstr "example", cstr "com"], 1, 1⟩], [], [], []⟩ := by
    decide +kernel
  have hstorable : Answer.Storable ⟨[[93, 184, 216, 34]], 1, 4, 300⟩ :=
    ⟨by decide, by decide, Or.inl rfl, by decide, by decide⟩
  have hmade : createCachedAnswerResponse (queryPacket 7 [cstr "example", cstr "com"] 1) 4096 1
      ⟨[[93, 184, 216, 34]], 1, 4, 300⟩ = some _ := rfl
  exact (synthesised_wellAnswered_iff hquery rfl rfl rfl (.cached hstorable hmade)).mpr rfl

/-- A query for `example.com` with the OPT record of a client that speaks EDNS. -/
def ednsQuery : CStr :=
  [0, 7, 1, 0, 0, 1, 0, 0, 0, 0, 0, 1] ++ (7 :: cstr "example") ++ (3 :: cstr "com") ++ [0] ++
    wire16 1 ++ wire16 1 ++ [0] ++ wire16 41 ++ wire16 1232 ++ wire32 0 ++ wire16 0

/-- `ednsQuery` as a message. -/
def ednsMessage : Dns.Message :=
  ⟨7, 0x0100, [⟨[cstr "example", cstr "com"], 1, 1⟩], [], [], [⟨[], 41, 1232, 0, []⟩]⟩

/-- The OPT record becomes the answer, and the answer an additional record. -/
theorem edns_query_not_answered :
    Dns.decode ednsQuery = some ednsMessage ∧
      question ednsQuery = some (cstr "example.com", 1) ∧
      ¬ WellAnswered ednsMessage [⟨[cstr "example", cstr "com"], 1, 1, 60, [0, 0, 0, 0]⟩]
        (createBlockedResponse ednsQuery 60) := by
  refine ⟨by decide +kernel, by decide +kernel, ?_⟩
  rintro ⟨reply, hreply, -, -, -, hanswers, -⟩
  have hread : (Dns.decode (createBlockedResponse ednsQuery 60)).map Dns.Message.answers =
      some [⟨[], 41, 1232, 0, []⟩] := by
    decide +kernel
  rw [hreply, Option.map_some, hanswers] at hread
  exact absurd hread (by decide)

end Nyet
