import Nyet.Packet.AnswerSection
import Nyet.Packet.SkipName

/-!
# Replies as they are written

A reply spelled out: a header, questions, answers, and whatever comes behind them. Names
are labels of up to 63 bytes that end in the root or in a pointer. `answerSection` finds
the answers again (`ReplyText.answerSection_bytes`), and so `parse_answer_records` takes
out the ones that it is to take.
-/

namespace Nyet

/-- What ends a name: the zero byte, or two bytes with both top bits set. -/
inductive NameEnding where
  | root
  | pointer (hi lo : UInt8) (bits : 192 ≤ hi.toNat)

def NameEnding.bytes : NameEnding → CStr
  | root => [0]
  | pointer hi lo _ => [hi, lo]

/-- A name in a message. -/
structure NameText where
  labels : List Label
  ending : NameEnding
  sized : ∀ label ∈ labels, 0 < label.length ∧ label.length < 64

def NameText.bytes (n : NameText) : CStr := (n.labels.map wireLabel).flatten ++ n.ending.bytes

/-- A question. -/
structure QuestionText where
  name : NameText
  qtype : UInt16
  qclass : UInt16

def QuestionText.bytes (q : QuestionText) : CStr :=
  q.name.bytes ++ (wire16 q.qtype ++ wire16 q.qclass)

/-- An answer, with data that RDLENGTH can count. -/
structure RecordText where
  name : NameText
  record : SeenRecord
  sized : record.rdata.length < 2 ^ 16

/-- TYPE, CLASS, TTL and RDLENGTH. -/
def SeenRecord.fields (r : SeenRecord) : CStr :=
  wire16 r.type ++ wire16 r.class_ ++ wire32 r.ttl ++ wire16 r.rdata.length.toUInt16

def RecordText.bytes (r : RecordText) : CStr :=
  r.name.bytes ++ (r.record.fields ++ r.record.rdata)

/-- A reply without an error, and anything behind its answers. -/
structure ReplyText where
  id : UInt16
  flags : UInt16
  questions : List QuestionText
  answers : List RecordText
  nscount : UInt16
  arcount : UInt16
  behind : CStr
  noError : flags &&& 0x000F = 0
  countable : questions.length < 2 ^ 16 ∧ answers.length < 2 ^ 16

def ReplyText.bytes (m : ReplyText) : CStr :=
  wire16 m.id ++ wire16 m.flags ++ wire16 m.questions.length.toUInt16 ++
    wire16 m.answers.length.toUInt16 ++ wire16 m.nscount ++ wire16 m.arcount ++
    ((m.questions.map QuestionText.bytes).flatten ++
      ((m.answers.map RecordText.bytes).flatten ++ m.behind))

/-- The answers, as the walk sees them. -/
def ReplyText.seen (m : ReplyText) : List SeenRecord := m.answers.map (·.record)

/-! ## Fields -/

theorem getD_of_drop {packet rest : CStr} {p : Nat} {c : UInt8} (h : packet.drop p = c :: rest) :
    packet.getD p 0 = c := by
  rw [List.getD_eq_getElem?_getD, getElem?_of_drop h, Option.getD_some]

theorem read16_of_drop {packet rest : CStr} {p : Nat} {x : UInt16}
    (h : packet.drop p = wire16 x ++ rest) : read16 packet p = x := by
  have hlow : packet.drop (p + 1) = x.toUInt8 :: rest := by
    rw [← List.drop_drop, h]
    rfl
  rw [read16, getD_of_drop h, getD_of_drop hlow, be16_wire16]

theorem read32_of_drop {packet rest : CStr} {p : Nat} {x : UInt32}
    (h : packet.drop p = wire32 x ++ rest) : read32 packet p = x := by
  rw [wire32_eq, List.append_assoc] at h
  have hlow : packet.drop (p + 2) = wire16 x.toUInt16 ++ rest := drop_of_drop h
  rw [read32, read16_of_drop h, read16_of_drop hlow, high_or_low]

/-- A length that fits comes back from its two bytes. -/
theorem toNat_toUInt16 {n : Nat} (h : n < 2 ^ 16) : n.toUInt16.toNat = n :=
  UInt16.toNat_ofNat_of_lt' h

/-! ## Names -/

/-- **A name is skipped**, whichever way it ends. -/
theorem skipDnsName_nameText {packet rest : CStr} {p : Nat} {n : NameText}
    (h : packet.drop p = n.bytes ++ rest) :
    skipDnsName packet (packet.length + 1) p = some (p + n.bytes.length) := by
  rw [NameText.bytes, List.append_assoc] at h
  obtain ⟨fuel, hlabels⟩ := skipDnsName_behind h fun label hl => by
    have := n.sized label hl
    rw [WireLabel]
    omega
  have hending := drop_of_drop h
  rw [hlabels, NameText.bytes, List.length_append, ← Nat.add_assoc]
  cases hn : n.ending with
  | root =>
    rw [hn] at hending
    exact skipDnsName_root hending
  | pointer hi lo bits =>
    rw [hn] at hending
    exact skipDnsName_pointer hending bits

/-! ## Sections -/

/-- The questions are skipped. -/
theorem skipQuestions_text {packet rest : CStr} {questions : List QuestionText} {p : Nat}
    (h : packet.drop p = (questions.map QuestionText.bytes).flatten ++ rest) :
    skipQuestions packet questions.length p =
      some (p + (questions.map QuestionText.bytes).flatten.length) := by
  induction questions generalizing p with
  | nil => rfl
  | cons q questions ih =>
    have hfour : (wire16 q.qtype ++ wire16 q.qclass).length = 4 := rfl
    rw [List.map_cons, List.flatten_cons, List.append_assoc, QuestionText.bytes,
      List.append_assoc] at h
    have hfields := drop_of_drop h
    have hrest := drop_of_drop hfields
    have hsize := congrArg List.length hfields
    rw [List.length_drop, List.length_append, hfour] at hsize
    rw [hfour] at hrest
    rw [List.length_cons, skipQuestions, skipDnsName_nameText h]
    show (if packet.length < p + q.name.bytes.length + 4 then none
      else skipQuestions packet questions.length (p + q.name.bytes.length + 4)) = _
    rw [if_neg (by omega), ih hrest, List.map_cons, List.flatten_cons, List.length_append,
      QuestionText.bytes, List.length_append, hfour, ← Nat.add_assoc, ← Nat.add_assoc]

/-- **An answer is read back**, with the offset behind it. -/
theorem recordAt_text {packet rest : CStr} {p : Nat} {r : RecordText}
    (h : packet.drop p = r.bytes ++ rest) :
    recordAt packet p = some (r.record, p + r.bytes.length) := by
  rw [RecordText.bytes, List.append_assoc, List.append_assoc] at h
  have hfields := drop_of_drop h
  have hrdata := drop_of_drop hfields
  have hten : r.record.fields.length = 10 := rfl
  rw [hten] at hrdata
  have hsize := congrArg List.length hfields
  rw [List.length_drop, List.length_append, List.length_append, hten] at hsize
  rw [SeenRecord.fields, List.append_assoc, List.append_assoc, List.append_assoc] at hfields
  rw [recordAt, skipDnsName_nameText h, RecordText.bytes, List.length_append, List.length_append,
    hten, ← Nat.add_assoc]
  dsimp only
  generalize p + r.name.bytes.length = q at *
  have hclass : packet.drop (q + 2) = wire16 r.record.class_ ++ _ := drop_of_drop hfields
  have httl : packet.drop (q + 4) = wire32 r.record.ttl ++ _ := drop_of_drop hclass
  have hlength : packet.drop (q + 8) = wire16 r.record.rdata.length.toUInt16 ++ _ :=
    drop_of_drop httl
  have hrdlength : (read16 packet (q + 8)).toNat = r.record.rdata.length := by
    rw [read16_of_drop hlength, toNat_toUInt16 r.sized]
  rw [hrdlength, if_neg (by omega), read16_of_drop hfields, read16_of_drop hclass,
    read32_of_drop httl, hrdata, List.take_left, ← Nat.add_assoc]

/-- **The answers are found again.** -/
theorem recordsFrom_text {packet rest : CStr} {answers : List RecordText} {p : Nat}
    (h : packet.drop p = (answers.map RecordText.bytes).flatten ++ rest) :
    recordsFrom packet answers.length p = answers.map (·.record) := by
  induction answers generalizing p with
  | nil => rfl
  | cons r answers ih =>
    rw [List.map_cons, List.flatten_cons, List.append_assoc] at h
    rw [List.length_cons, recordsFrom, recordAt_text h, List.map_cons]
    show r.record :: recordsFrom packet answers.length (p + r.bytes.length) = _
    rw [ih (drop_of_drop h)]

/-! ## The whole reply -/

theorem ReplyText.noError_bytes (m : ReplyText) : NoError m.bytes := by
  have hflags : m.bytes.getD 3 0 = m.flags.toUInt8 := rfl
  refine ⟨?_, ?_⟩
  · rw [ReplyText.bytes, List.length_append]
    exact Nat.le_add_right 12 _
  · have hlow : m.flags.toUInt8 &&& (0x000F : UInt16).toUInt8 = 0 := by
      rw [← UInt16.toUInt8_and, m.noError]
      rfl
    rw [hflags]
    exact hlow

/-- **The answer section of a reply is its answers.** -/
theorem ReplyText.answerSection_bytes (m : ReplyText) : answerSection m.bytes = m.seen := by
  have hqdcount : (read16 m.bytes 4).toNat = m.questions.length := by
    have h : m.bytes.drop 4 = wire16 m.questions.length.toUInt16 ++ _ := rfl
    rw [read16_of_drop h, toNat_toUInt16 m.countable.1]
  have hancount : (read16 m.bytes 6).toNat = m.answers.length := by
    have h : m.bytes.drop 6 = wire16 m.answers.length.toUInt16 ++ _ := rfl
    rw [read16_of_drop h, toNat_toUInt16 m.countable.2]
  have hbody : m.bytes.drop 12 = (m.questions.map QuestionText.bytes).flatten ++
      ((m.answers.map RecordText.bytes).flatten ++ m.behind) := rfl
  rw [answerSection, hqdcount, hancount, skipQuestions_text hbody]
  exact recordsFrom_text (drop_of_drop hbody)

/-- **`parse_answer_records` takes out the answers it is to take**, the first eight of them
in their order, unless their least TTL is one that it does not accept. -/
theorem parse_answer_records_extracts (m : ReplyText) (qtype : UInt16) {out : Answer}
    (hout : out.records.length = 8) :
    ∃ found answer, parseAnswerRecords m.bytes qtype out = (found, answer) ∧
      (found = true ↔ (∃ r ∈ m.seen, Wanted qtype r) ∧
        ∀ ttl, IsLeastTtl (keptOf qtype m.seen) ttl → ttl ≠ 0 ∧ ttl ≠ 0xffffffff) ∧
      (found = true →
        answer.numRecords.toNat = (keptOf qtype m.seen).length ∧
        answer.recordBytes = expectedBytes qtype ∧
        (answer.records.take answer.numRecords.toNat).map (·.take answer.recordBytes.toNat) =
          (keptOf qtype m.seen).map (·.rdata) ∧
        IsLeastTtl (keptOf qtype m.seen) answer.ttlSeconds) := by
  rw [parseAnswerRecords_eq, if_pos m.noError_bytes, m.answerSection_bytes]
  have hwanted : (∃ r ∈ m.seen, Wanted qtype r) ↔ keptOf qtype m.seen ≠ [] := by
    rw [keptOf, ne_eq, List.take_eq_nil_iff, List.filter_eq_nil_iff]
    constructor
    · rintro ⟨r, hr, hw⟩ (hzero | hnone)
      · exact absurd hzero (by decide)
      · exact hnone r hr (decide_eq_true hw)
    · intro h
      by_contra hnone
      exact h (Or.inr fun r hr hw => hnone ⟨r, hr, of_decide_eq_true hw⟩)
  have hcount := toNat_toUInt8 (length_keptOf_le qtype m.seen)
  rw [concluded]
  -- the parse fails on the least TTL only, and with nothing kept that is the initial 0xffffffff
  by_cases hbad : minTtlOf (keptOf qtype m.seen) = 0 ∨ minTtlOf (keptOf qtype m.seen) = 0xffffffff
  · rw [if_pos hbad]
    refine ⟨_, _, rfl, ⟨fun h => absurd h Bool.false_ne_true, fun h => ?_⟩,
      fun h => absurd h Bool.false_ne_true⟩
    obtain ⟨hsome, hall⟩ := h
    obtain ⟨hzero, hmax⟩ := hall _ (minTtlOf_isLeast (hwanted.mp hsome))
    exact absurd hbad (not_or.mpr ⟨hzero, hmax⟩)
  · rw [if_neg hbad]
    have hne : keptOf qtype m.seen ≠ [] := fun hnil => hbad (Or.inr (by rw [hnil]; rfl))
    have hleast := minTtlOf_isLeast hne
    refine ⟨_, _, rfl, ⟨fun _ => ⟨hwanted.mpr hne, fun ttl httl => ?_⟩, fun _ => rfl⟩,
      fun _ => ⟨hcount, rfl, ?_, hleast⟩⟩
    · rw [httl.unique hleast]
      exact not_or.mp hbad
    · show ((fillSlots out.records ((keptOf qtype m.seen).map (·.rdata))).take
        (keptOf qtype m.seen).length.toUInt8.toNat).map (·.take (expectedBytes qtype).toNat) = _
      rw [hcount]
      refine fillSlots_wanted ?_ fun r hr => ?_
      · rw [hout]
        exact length_keptOf_le qtype m.seen
      · exact of_decide_eq_true (List.mem_filter.mp (List.mem_of_mem_take hr)).2

theorem exampleLabels_sized :
    ∀ label ∈ [cstr "example", cstr "com"], 0 < label.length ∧ label.length < 64 := by
  decide

theorem noLabels_sized : ∀ label ∈ ([] : List CStr), 0 < label.length ∧ label.length < 64 :=
  List.forall_mem_nil _

/-- The pointer of a cached reply, to the question's name. -/
theorem questionPointer_bits : 192 ≤ UInt8.toNat 0xc0 := by
  decide

theorem cachedFlags_noError : (0x8180 : UInt16) &&& 0x000F = 0 := by
  decide

/-- An alias, and the two addresses it leads to. -/
def aliasText : ReplyText where
  id := 7
  flags := 0x8180
  questions := [⟨⟨[cstr "example", cstr "com"], .root, exampleLabels_sized⟩, 1, 1⟩]
  answers :=
    [⟨⟨[], .pointer 0xc0 0x0c questionPointer_bits, noLabels_sized⟩,
        ⟨5, 1, 5, 3 :: cstr "cdn" ++ [0xc0, 0x0c]⟩, by decide⟩,
      ⟨⟨[cstr "cdn"], .pointer 0xc0 0x0c questionPointer_bits, by decide⟩, ⟨1, 1, 300, [192, 0, 2, 1]⟩,
        by decide⟩,
      ⟨⟨[cstr "cdn"], .pointer 0xc0 0x0c questionPointer_bits, by decide⟩, ⟨1, 1, 60, [192, 0, 2, 2]⟩,
        by decide⟩]
  nscount := 0
  arcount := 0
  behind := []
  noError := cachedFlags_noError
  countable := by decide

/-- What is taken out of it. -/
theorem parse_answer_records_extracts_alias :
    let m := aliasText
    ∃ found answer, parseAnswerRecords m.bytes 1 Answer.cleared = (found, answer) ∧
      (found = true ↔ (∃ r ∈ m.seen, Wanted 1 r) ∧
        ∀ ttl, IsLeastTtl (keptOf 1 m.seen) ttl → ttl ≠ 0 ∧ ttl ≠ 0xffffffff) ∧
      (found = true →
        answer.numRecords.toNat = (keptOf 1 m.seen).length ∧
        answer.recordBytes = expectedBytes 1 ∧
        (answer.records.take answer.numRecords.toNat).map (·.take answer.recordBytes.toNat) =
          (keptOf 1 m.seen).map (·.rdata) ∧
        IsLeastTtl (keptOf 1 m.seen) answer.ttlSeconds) :=
  parse_answer_records_extracts aliasText 1 rfl

example : (parseAnswerRecords aliasText.bytes 1 Answer.cleared).1 = true := by decide +kernel

end Nyet
