import Nyet.Packet.ReplyText
import Nyet.Packet.Synthesised

/-!
# Cached answers, written and read back

`create_cached_answer_response` writes what `parse_answer_records` reads. For a query
that is nothing but its question, the response is a reply spelled out
(`answeredText`): the question echoed, and behind it the records with a pointer for a
name.
-/

namespace Nyet

/-- A query: a header that counts one question, and that question. -/
structure QueryText where
  id : UInt16
  flags : UInt16
  question : QuestionText

def QueryText.bytes (m : QueryText) : CStr :=
  wire16 m.id ++ wire16 m.flags ++ wire16 1 ++ wire16 0 ++ wire16 0 ++ wire16 0 ++
    m.question.bytes

/-- An answer to a question of this type: the size of its records and its TTL are what
`parse_answer_records` takes. -/
structure Answer.CachedFor (qtype : UInt16) (answer : Answer) : Prop where
  storable : answer.Storable
  width : answer.recordBytes = expectedBytes qtype
  ttl : answer.ttlSeconds ≠ 0 ∧ answer.ttlSeconds ≠ 0xffffffff

/-- The records of an answer: so many slots, and of each so many bytes. -/
def Answer.data (answer : Answer) : List CStr :=
  (answer.records.take answer.numRecords.toNat).map (·.take answer.recordBytes.toNat)

/-- A record as `create_cached_answer_response` writes it. -/
def cachedRecord (qtype : UInt16) (answer : Answer) (slot : CStr) : RecordText where
  name := ⟨[], .pointer 0xc0 0x0c questionPointer_bits, noLabels_sized⟩
  record := ⟨qtype, 1, answer.ttlSeconds, slot.take answer.recordBytes.toNat⟩
  sized := by
    have hbyte := answer.recordBytes.toNat_lt
    exact Nat.lt_of_le_of_lt (List.length_take_le _ _) (by omega)

/-- The response to a query. -/
def answeredText (m : QueryText) (qtype : UInt16) (answer : Answer) : ReplyText where
  id := m.id
  flags := 0x8180
  questions := [m.question]
  answers := (answer.records.take answer.numRecords.toNat).map (cachedRecord qtype answer)
  nscount := 0
  arcount := 0
  behind := []
  noError := cachedFlags_noError
  countable := by
    have hbyte := answer.numRecords.toNat_lt
    refine ⟨(by decide : 1 < 2 ^ 16), ?_⟩
    rw [List.length_map]
    exact Nat.lt_of_le_of_lt (List.length_take_le _ _) (by omega)

theorem QueryText.header_le (m : QueryText) : 12 ≤ m.bytes.length := by
  rw [QueryText.bytes, List.length_append]
  exact Nat.le_add_right 12 _

/-- The copy of the query is the front of the reply. -/
theorem patched_bytes (m : QueryText) (answers : UInt16) :
    patched m.bytes answers =
      wire16 m.id ++ wire16 0x8180 ++ wire16 1 ++ wire16 answers ++ wire16 0 ++ wire16 0 ++
        m.question.bytes := rfl

theorem toUInt16_toNat (x : UInt8) : x.toNat.toUInt16 = x.toUInt16 := by
  apply UInt16.toNat_inj.mp
  have hx := x.toNat_lt
  rw [toNat_toUInt16 (by omega), UInt8.toNat_toUInt16]

theorem cachedRecord_bytes (qtype : UInt16) (answer : Answer) {slot : CStr}
    (h : answer.recordBytes.toNat ≤ slot.length) :
    (cachedRecord qtype answer slot).bytes =
      recordHeader qtype answer.ttlSeconds answer.recordBytes.toUInt16 ++
        slot.take answer.recordBytes.toNat := by
  have hsize : (slot.take answer.recordBytes.toNat).length.toUInt16 =
      answer.recordBytes.toUInt16 := by
    rw [List.length_take, Nat.min_eq_left h, toUInt16_toNat]
  show [0xc0, 0x0c] ++ (wire16 qtype ++ wire16 1 ++ wire32 answer.ttlSeconds ++
    wire16 (slot.take answer.recordBytes.toNat).length.toUInt16 ++
      slot.take answer.recordBytes.toNat) = _
  rw [hsize, recordHeader]
  simp only [List.append_assoc]

/-- The reply is the query, patched, and the records behind it. -/
theorem answeredText_bytes (m : QueryText) (qtype : UInt16) {answer : Answer}
    (h : answer.Storable) :
    (answeredText m qtype answer).bytes = patched m.bytes answer.numRecords.toUInt16 ++
      ((answer.records.take answer.numRecords.toNat).map fun slot =>
        recordHeader qtype answer.ttlSeconds answer.recordBytes.toUInt16 ++
          slot.take answer.recordBytes.toNat).flatten := by
  have hcount : (answeredText m qtype answer).answers.length.toUInt16 =
      answer.numRecords.toUInt16 := by
    rw [answeredText, List.length_map, List.length_take, Nat.min_eq_left h.slots, toUInt16_toNat]
  have hrecords : (answeredText m qtype answer).answers.map RecordText.bytes =
      (answer.records.take answer.numRecords.toNat).map fun slot =>
        recordHeader qtype answer.ttlSeconds answer.recordBytes.toUInt16 ++
          slot.take answer.recordBytes.toNat := by
    rw [answeredText, List.map_map]
    refine List.map_congr_left fun slot hslot => ?_
    exact cachedRecord_bytes qtype answer (h.wide slot (List.mem_of_mem_take hslot))
  rw [ReplyText.bytes, hcount, hrecords, patched_bytes, List.append_assoc _ m.question.bytes]
  show _ ++ (([m.question].map QuestionText.bytes).flatten ++ (_ ++ [])) = _
  rw [List.map_singleton, List.flatten_singleton, List.append_nil]
  rfl

/-- Every record takes as many bytes. -/
theorem length_answeredText (m : QueryText) (qtype : UInt16) {answer : Answer}
    (h : answer.Storable) :
    (answeredText m qtype answer).bytes.length =
      m.bytes.length + answer.numRecords.toNat * (12 + answer.recordBytes.toNat) := by
  have hrecord : ∀ slot ∈ answer.records.take answer.numRecords.toNat,
      (recordHeader qtype answer.ttlSeconds answer.recordBytes.toUInt16 ++
        slot.take answer.recordBytes.toNat).length = 12 + answer.recordBytes.toNat := by
    intro slot hslot
    rw [List.length_append, List.length_take,
      Nat.min_eq_left (h.wide slot (List.mem_of_mem_take hslot))]
    rfl
  rw [answeredText_bytes m qtype h, List.length_append, length_patched m.header_le,
    List.length_flatten, List.map_map, Function.comp_def, List.map_congr_left hrecord,
    List.map_const', List.sum_replicate_nat, List.length_take, Nat.min_eq_left h.slots]

/-- **The response is a reply spelled out**, written if there is room for it. -/
theorem createCachedAnswerResponse_text (m : QueryText) (qtype : UInt16) {answer : Answer}
    (h : answer.Storable) (outCapacity : Nat) :
    createCachedAnswerResponse m.bytes outCapacity qtype answer =
      if outCapacity < (answeredText m qtype answer).bytes.length then none
      else some (answeredText m qtype answer).bytes := by
  rw [length_answeredText m qtype h]
  by_cases hroom : outCapacity <
      m.bytes.length + answer.numRecords.toNat * (12 + answer.recordBytes.toNat)
  · rw [if_pos hroom]
    exact if_pos hroom
  · rw [if_neg hroom, answeredText_bytes m qtype h]
    obtain ⟨response, hmade⟩ : ∃ response,
        createCachedAnswerResponse m.bytes outCapacity qtype answer = some response :=
      ⟨_, if_neg hroom⟩
    rw [hmade, createCachedAnswerResponse_eq h.slots hmade]

/-! ## Read back -/

/-- The data of the records, as the walk sees it. -/
theorem seen_answeredText_rdata (m : QueryText) (qtype : UInt16) (answer : Answer) :
    (answeredText m qtype answer).seen.map (·.rdata) = answer.data := by
  show (((answer.records.take answer.numRecords.toNat).map (cachedRecord qtype answer)).map
    (·.record)).map (·.rdata) = _
  rw [List.map_map, List.map_map]
  rfl

/-- Every record is one to cache, with the TTL of the answer. -/
theorem wanted_of_mem_seen {m : QueryText} {qtype : UInt16} {answer : Answer}
    (h : answer.CachedFor qtype) {r : SeenRecord} (hr : r ∈ (answeredText m qtype answer).seen) :
    Wanted qtype r ∧ r.ttl = answer.ttlSeconds := by
  obtain ⟨record, hrecord, rfl⟩ := List.mem_map.mp hr
  obtain ⟨slot, hslot, rfl⟩ := List.mem_map.mp hrecord
  have hwide := h.storable.wide slot (List.mem_of_mem_take hslot)
  refine ⟨⟨rfl, rfl, ?_⟩, rfl⟩
  show (slot.take answer.recordBytes.toNat).length = _
  rw [List.length_take, Nat.min_eq_left hwide, h.width]

/-- There are as many as the answer has. -/
theorem length_seen (m : QueryText) (qtype : UInt16) {answer : Answer} (h : answer.Storable) :
    (answeredText m qtype answer).seen.length = answer.numRecords.toNat := by
  rw [ReplyText.seen, List.length_map, answeredText, List.length_map, List.length_take,
    Nat.min_eq_left h.slots]

/-- None of them is left out. -/
theorem keptOf_answeredText (m : QueryText) {qtype : UInt16} {answer : Answer}
    (h : answer.CachedFor qtype) :
    keptOf qtype (answeredText m qtype answer).seen = (answeredText m qtype answer).seen := by
  have hfew := UInt8.le_iff_toNat_le.mp h.storable.few
  have hwanted : ∀ r ∈ (answeredText m qtype answer).seen, decide (Wanted qtype r) = true :=
    fun r hr => decide_eq_true (wanted_of_mem_seen h hr).1
  rw [keptOf, List.filter_eq_self.mpr hwanted, List.take_of_length_le]
  rwa [length_seen m qtype h.storable]

/-- The least TTL is the one they all have. -/
theorem minTtlOf_answeredText (m : QueryText) {qtype : UInt16} {answer : Answer}
    (h : answer.CachedFor qtype) :
    minTtlOf (answeredText m qtype answer).seen = answer.ttlSeconds := by
  have hsome := UInt8.le_iff_toNat_le.mp h.storable.some
  have hne : (answeredText m qtype answer).seen ≠ [] := by
    refine List.ne_nil_of_length_pos ?_
    rwa [length_seen m qtype h.storable]
  obtain ⟨r, hr, httl⟩ := (minTtlOf_isLeast hne).1
  rw [← httl, (wanted_of_mem_seen h hr).2]

/-- **What is written is read back**: for a query that is nothing but its question there is
one response, written exactly if it fits, and it is parsed to the answer it was made of. -/
theorem cached_answer_round_trip (m : QueryText) {qtype : UInt16} {answer out : Answer}
    (hanswer : answer.CachedFor qtype) (hout : out.records.length = 8) :
    ∃ response parsed,
      (∀ outCapacity, createCachedAnswerResponse m.bytes outCapacity qtype answer =
        if outCapacity < response.length then none else some response) ∧
      parseAnswerRecords response qtype out = (true, parsed) ∧
      parsed.data = answer.data ∧ parsed.numRecords = answer.numRecords ∧
      parsed.recordBytes = answer.recordBytes ∧ parsed.ttlSeconds = answer.ttlSeconds := by
  have hcount : (answeredText m qtype answer).seen.length.toUInt8 = answer.numRecords := by
    rw [length_seen m qtype hanswer.storable]
    exact UInt8.ofNat_toNat
  have hfew := UInt8.le_iff_toNat_le.mp hanswer.storable.few
  -- the minimum over the records is the ttl they all carry, and neither of the two the parser
  -- rejects
  have hgood : ¬ (answer.ttlSeconds = 0 ∨ answer.ttlSeconds = 0xffffffff) :=
    not_or.mpr hanswer.ttl
  have hleast := minTtlOf_answeredText m hanswer
  refine ⟨(answeredText m qtype answer).bytes,
    ⟨fillSlots out.records ((answeredText m qtype answer).seen.map (·.rdata)),
      (answeredText m qtype answer).seen.length.toUInt8, expectedBytes qtype,
      minTtlOf (answeredText m qtype answer).seen⟩,
    createCachedAnswerResponse_text m qtype hanswer.storable, ?_, ?_, hcount,
    hanswer.width.symm, hleast⟩
  · rw [parseAnswerRecords_eq, if_pos (ReplyText.noError_bytes _), ReplyText.answerSection_bytes,
      keptOf_answeredText m hanswer, concluded]
    exact if_neg (by rwa [hleast])
  · show ((fillSlots out.records ((answeredText m qtype answer).seen.map (·.rdata))).take
      (answeredText m qtype answer).seen.length.toUInt8.toNat).map
        (·.take (expectedBytes qtype).toNat) = answer.data
    rw [hcount, ← length_seen m qtype hanswer.storable, fillSlots_wanted, seen_answeredText_rdata]
    · rw [hout, length_seen m qtype hanswer.storable]
      exact hfew
    · exact fun r hr => (wanted_of_mem_seen hanswer hr).1

/-- A query for `example.com`. -/
def exampleQuery : QueryText where
  id := 7
  flags := 0x0100
  question := ⟨⟨[cstr "example", cstr "com"], .root, exampleLabels_sized⟩, 1, 1⟩

/-- Its two addresses. -/
theorem cached_answer_round_trip_two :
    let answer : Answer := ⟨[[192, 0, 2, 1], [192, 0, 2, 2]], 2, 4, 300⟩
    ∃ response parsed,
      (∀ outCapacity, createCachedAnswerResponse exampleQuery.bytes outCapacity 1 answer =
        if outCapacity < response.length then none else some response) ∧
      parseAnswerRecords response 1 Answer.cleared = (true, parsed) ∧
      parsed.data = answer.data ∧ parsed.numRecords = answer.numRecords ∧
      parsed.recordBytes = answer.recordBytes ∧ parsed.ttlSeconds = answer.ttlSeconds :=
  cached_answer_round_trip exampleQuery
    ⟨⟨by decide, by decide, Or.inl rfl, by decide, by decide⟩, rfl, by decide, by decide⟩ rfl

end Nyet
