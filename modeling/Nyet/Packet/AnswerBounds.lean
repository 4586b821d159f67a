import Nyet.Packet.AnswerSection

/-!
# `parse_answer_records` at the buffers

The walk once more, with every access checked: `none` is a read outside of the reply, a
write outside of the eight slots of sixteen bytes, or a loop that does not end. The
counters are the `uint16_t` of the loops, and nothing is assumed about the reply.
-/

namespace Nyet

/-- `memcpy(&field, p, 2)` and `ntohs` -/
def read16In (packet : CStr) (p : Nat) : Option UInt16 := do
  let hi ← packet[p]?
  let lo ← packet[p + 1]?
  some (be16 hi lo)

/-- `memcpy(&field, p, 4)` and `ntohl` -/
def read32In (packet : CStr) (p : Nat) : Option UInt32 := do
  let hi ← read16In packet p
  let lo ← read16In packet (p + 2)
  some (hi.toUInt32 <<< 16 ||| lo.toUInt32)

/-- `skip_dns_name`: what it returns, NULL being `none`. -/
def skipDnsNameIn (packet : CStr) : Nat → Nat → Option (Option Nat)
  | 0, _ => none
  | fuel + 1, p =>
    if packet.length ≤ p then some none   -- `p < limit` fails
    else do
      let len ← packet[p]?
      if len &&& 0xC0 = 0xC0 then some (if p + 2 ≤ packet.length then some (p + 2) else none)
      else if len = 0 then some (some (p + 1))
      else skipDnsNameIn packet fuel (p + 1 + len.toNat)

/-- `for (uint16_t i = 0; i < qdcount; i++)`, the loop over the questions. -/
def questionsIn (reply : CStr) (qdcount : UInt16) : Nat → UInt16 → Nat → Option (Option Nat)
  | 0, _, _ => none
  | fuel + 1, i, p =>
    if i < qdcount then do
      match ← skipDnsNameIn reply (reply.length + 1) p with
      | none => some none
      | some p =>
        if reply.length < p + 4 then some none else questionsIn reply qdcount fuel (i + 1) (p + 4)
    else some (some p)

/-- `memcpy(out->records[count], p, n)` -/
def copyRecord (reply : CStr) (p n : Nat) (records : List CStr) (count : Nat) :
    Option (List CStr) := do
  let slot ← records[count]?
  if p + n ≤ reply.length ∧ n ≤ slot.length then
    some (records.set count ((reply.drop p).take n ++ slot.drop n))
  else none

/-- `for (uint16_t i = 0; i < ancount && count < ANSWER_CACHE_MAX_RECORDS; i++)`, the loop
over the records. -/
def recordsIn (reply : CStr) (qtype : UInt16) (expectedBytes : UInt8) (ancount : UInt16) :
    Nat → UInt16 → Nat → RecordScan → Option RecordScan
  | 0, _, _, _ => none
  | fuel + 1, i, p, s =>
    if i < ancount ∧ s.count < answerCacheMaxRecords then do
      match ← skipDnsNameIn reply (reply.length + 1) p with
      | none => some s
      | some p =>
        if reply.length < p + 10 then some s
        else
          let rtype ← read16In reply p
          let rclass ← read16In reply (p + 2)
          let rttl ← read32In reply (p + 4)
          let rdlength ← read16In reply (p + 8)
          let p := p + 10
          if reply.length < p + rdlength.toNat then some s
          else if rtype = qtype ∧ rclass = 1 ∧ rdlength.toNat = expectedBytes.toNat then
            let records ← copyRecord reply p expectedBytes.toNat s.records s.count.toNat
            recordsIn reply qtype expectedBytes ancount fuel (i + 1) (p + rdlength.toNat)
              ⟨s.count + 1, if rttl < s.minTtl then rttl else s.minTtl, records⟩
          else
            recordsIn reply qtype expectedBytes ancount fuel (i + 1) (p + rdlength.toNat) s
    else some s

/-- `parse_answer_records` -/
def parseAnswerRecordsIn (reply : CStr) (qtype : UInt16) (out : Answer) :
    Option (Bool × Answer) :=
  if reply.length < 12 then some (false, out)
  else do
    let flags ← reply[3]?
    if flags &&& 0x0F ≠ 0 then some (false, out)
    else
      let qdcount ← read16In reply 4
      let ancount ← read16In reply 6
      if ancount = 0 then some (false, out)
      else
        match ← questionsIn reply qdcount (2 ^ 16) 0 12 with
        | none => some (false, out)
        | some p =>
          let s ← recordsIn reply qtype (expectedBytes qtype) ancount (2 ^ 16) 0 p
            ⟨0, 0xffffffff, out.records⟩
          if s.count = 0 ∨ s.minTtl = 0 ∨ s.minTtl = 0xffffffff then
            some (false, { out with records := s.records })
          else some (true, ⟨s.records, s.count, expectedBytes qtype, s.minTtl⟩)

/-! ## Reads -/

theorem getElem?_eq_getD {packet : CStr} {p : Nat} (h : p < packet.length) :
    packet[p]? = some (packet.getD p 0) := by
  rw [List.getD_eq_getElem?_getD, List.getElem?_eq_getElem h, Option.getD_some]

theorem read16In_eq {packet : CStr} {p : Nat} (h : p + 2 ≤ packet.length) :
    read16In packet p = some (read16 packet p) := by
  rw [read16In, getElem?_eq_getD (by omega), getElem?_eq_getD (by omega)]
  rfl

theorem read32In_eq {packet : CStr} {p : Nat} (h : p + 4 ≤ packet.length) :
    read32In packet p = some (read32 packet p) := by
  rw [read32In, read16In_eq (by omega), read16In_eq (by omega)]
  rfl

/-! ## Loops -/

/-- **A name is skipped within the packet**, or found not to end in it. -/
theorem skipDnsNameIn_eq {packet : CStr} {fuel p : Nat} (h : packet.length - p < fuel) :
    skipDnsNameIn packet fuel p = some (skipDnsName packet fuel p) := by
  induction fuel generalizing p with
  | zero => exact absurd h (Nat.not_lt_zero _)
  | succ fuel ih =>
    rw [skipDnsNameIn, skipDnsName]
    by_cases hend : packet.length ≤ p
    · rw [if_pos hend, List.getElem?_eq_none hend]
    rw [if_neg hend, List.getElem?_eq_getElem (Nat.not_le.mp hend)]
    show (if packet[p] &&& 0xC0 = 0xC0 then _ else if packet[p] = 0 then _ else _) =
      some (if packet[p] &&& 0xC0 = 0xC0 then _ else if packet[p] = 0 then _ else _)
    by_cases hpointer : packet[p] &&& 0xC0 = 0xC0
    · rw [if_pos hpointer, if_pos hpointer]
    by_cases hroot : packet[p] = 0
    · rw [if_neg hpointer, if_neg hpointer, if_pos hroot, if_pos hroot]
    · -- a length byte is passed, so that less is left
      rw [if_neg hpointer, if_neg hpointer, if_neg hroot, if_neg hroot]
      exact ih (by omega)

/-- One more question counted. -/
theorem toNat_succ_of_lt {i n : UInt16} (h : i < n) : (i + 1).toNat = i.toNat + 1 := by
  have hi := UInt16.lt_iff_toNat_lt.mp h
  have hn := n.toNat_lt
  rw [UInt16.toNat_add]
  exact Nat.mod_eq_of_lt (by show i.toNat + 1 < 2 ^ 16; omega)

/-- **The questions are skipped**, as many as are left to count. -/
theorem questionsIn_eq {reply : CStr} {qdcount i : UInt16} {fuel p : Nat}
    (h : qdcount.toNat - i.toNat < fuel) :
    questionsIn reply qdcount fuel i p =
      some (skipQuestions reply (qdcount.toNat - i.toNat) p) := by
  induction fuel generalizing i p with
  | zero => exact absurd h (Nat.not_lt_zero _)
  | succ fuel ih =>
    rw [questionsIn]
    -- the counter runs up in 16 bits, what is left of it runs down
    by_cases hmore : i < qdcount
    · have hlt := UInt16.lt_iff_toNat_lt.mp hmore
      have hnext := toNat_succ_of_lt hmore
      obtain ⟨left, hleft⟩ : ∃ left, qdcount.toNat - i.toNat = left + 1 :=
        ⟨qdcount.toNat - i.toNat - 1, by omega⟩
      have hrest : qdcount.toNat - (i + 1).toNat = left := by omega
      rw [if_pos hmore, skipDnsNameIn_eq (by omega), hleft, skipQuestions]
      cases skipDnsName reply (reply.length + 1) p with
      | none => rfl
      | some p =>
        show (if reply.length < p + 4 then some none else
          questionsIn reply qdcount fuel (i + 1) (p + 4)) =
            some (if reply.length < p + 4 then none else skipQuestions reply left (p + 4))
        by_cases hfields : reply.length < p + 4
        · rw [if_pos hfields, if_pos hfields]
        · rw [if_neg hfields, if_neg hfields, ← hrest]
          exact ih (by omega)
    · have hle := UInt16.le_iff_toNat_le.mp (UInt16.not_lt.mp hmore)
      rw [if_neg hmore, Nat.sub_eq_zero_of_le hle]
      rfl

/-! ## Slots -/

/-- `out->records`: eight slots of sixteen bytes. -/
structure RecordSlots (records : List CStr) : Prop where
  eight : records.length = 8
  sixteen : ∀ slot ∈ records, slot.length = 16

/-- A record that fits into the next free slot is stored there, and the slots keep their
sizes. -/
theorem copyRecord_eq {reply : CStr} {p : Nat} {n : UInt8} {s : RecordScan} (ttl : UInt32)
    (hslots : RecordSlots s.records) (hp : p + n.toNat ≤ reply.length) (hn : n.toNat ≤ 16)
    (hcount : s.count < answerCacheMaxRecords) :
    copyRecord reply p n.toNat s.records s.count.toNat =
        some (s.store ((reply.drop p).take n.toNat) ttl).records ∧
      RecordSlots (s.store ((reply.drop p).take n.toNat) ttl).records := by
  have hlt : s.count.toNat < s.records.length := by
    rw [hslots.eight]
    exact UInt8.lt_iff_toNat_lt.mp hcount
  have hslot := hslots.sixteen _ (List.getElem_mem hlt)
  have hlen : ((reply.drop p).take n.toNat).length = n.toNat := by
    rw [List.length_take, List.length_drop]
    omega
  -- the rest of the slot stays what it was
  have hstored : (s.store ((reply.drop p).take n.toNat) ttl).records =
      s.records.set s.count.toNat
        ((reply.drop p).take n.toNat ++ (s.records[s.count.toNat]).drop n.toNat) := by
    rw [RecordScan.store, List.getD_eq_getElem?_getD, List.getElem?_eq_getElem hlt,
      Option.getD_some, hlen]
  rw [hstored]
  refine ⟨?_, ?_, fun slot hmem => ?_⟩
  · rw [copyRecord, List.getElem?_eq_getElem hlt]
    exact if_pos ⟨hp, by rwa [hslot]⟩
  · rw [List.length_set, hslots.eight]
  · rcases List.mem_or_eq_of_mem_set hmem with hold | rfl
    · exact hslots.sixteen slot hold
    · rw [List.length_append, hlen, List.length_drop, hslot]
      omega

/-- **The records are walked**, as many as are left to count, within the reply and the
slots. -/
theorem recordsIn_eq {reply : CStr} {qtype ancount i : UInt16} {size : UInt8} {fuel p : Nat}
    {s : RecordScan} (hsize : size.toNat ≤ 16) (hslots : RecordSlots s.records)
    (h : ancount.toNat - i.toNat < fuel) :
    recordsIn reply qtype size ancount fuel i p s =
        some (scanRecords reply qtype size (ancount.toNat - i.toNat) p s) ∧
      RecordSlots (scanRecords reply qtype size (ancount.toNat - i.toNat) p s).records := by
  induction fuel generalizing i p s with
  | zero => exact absurd h (Nat.not_lt_zero _)
  | succ fuel ih =>
    rw [recordsIn]
    by_cases hmore : i < ancount
    case neg =>
      have hle := UInt16.le_iff_toNat_le.mp (UInt16.not_lt.mp hmore)
      rw [if_neg fun h => hmore h.1, Nat.sub_eq_zero_of_le hle]
      exact ⟨rfl, hslots⟩
    have hlt := UInt16.lt_iff_toNat_lt.mp hmore
    have hnext := toNat_succ_of_lt hmore
    obtain ⟨left, hleft⟩ : ∃ left, ancount.toNat - i.toNat = left + 1 :=
      ⟨ancount.toNat - i.toNat - 1, by omega⟩
    have hrest : ancount.toNat - (i + 1).toNat = left := by omega
    rw [hleft, scanRecords]
    by_cases hfull : answerCacheMaxRecords ≤ s.count
    · rw [if_neg fun h => absurd h.2 (UInt8.not_lt.mpr hfull), if_pos hfull]
      exact ⟨rfl, hslots⟩
    rw [if_pos ⟨hmore, UInt8.not_le.mp hfull⟩, if_neg hfull, skipDnsNameIn_eq (by omega)]
    cases skipDnsName reply (reply.length + 1) p with
    | none => exact ⟨rfl, hslots⟩
    | some p =>
      simp only [Option.bind_eq_bind, Option.bind_some]
      by_cases hfields : reply.length < p + 10
      · rw [if_pos hfields, if_pos hfields]
        exact ⟨rfl, hslots⟩
      rw [if_neg hfields, if_neg hfields, read16In_eq (by omega), read16In_eq (by omega),
        read32In_eq (by omega), read16In_eq (by omega)]
      simp only [Option.bind_some]
      rw [← hrest]
      by_cases hrdata : reply.length < p + 10 + (read16 reply (p + 8)).toNat
      · rw [if_pos hrdata, if_pos hrdata]
        exact ⟨rfl, hslots⟩
      rw [if_neg hrdata, if_neg hrdata]
      by_cases hwanted :
          read16 reply p = qtype ∧ read16 reply (p + 2) = 1 ∧ (read16 reply (p + 8)).toNat = size.toNat
      · -- the data that is copied is what RDLENGTH was checked for
        have hp : p + 10 + size.toNat ≤ reply.length := by
          rw [← hwanted.2.2]
          exact Nat.not_lt.mp hrdata
        obtain ⟨hcopy, hkept⟩ := copyRecord_eq (read32 reply (p + 4)) hslots hp hsize
          (UInt8.not_le.mp hfull)
        rw [if_pos hwanted, if_pos hwanted, hcopy]
        exact ih hkept (by omega)
      · rw [if_neg hwanted, if_neg hwanted]
        exact ih hslots (by omega)

/-! ## The whole walk -/

/-- **Walking a reply is safe**: whatever its bytes are, every read is within it and every
write within the eight slots of `out`, the loops end, and what is computed is
`parseAnswerRecords`. -/
theorem parse_answer_records_in_bounds (reply : CStr) (qtype : UInt16) {out : Answer}
    (hout : RecordSlots out.records) :
    parseAnswerRecordsIn reply qtype out = some (parseAnswerRecords reply qtype out) ∧
      RecordSlots (parseAnswerRecords reply qtype out).2.records := by
  rw [parseAnswerRecordsIn, parseAnswerRecords]
  by_cases hheader : reply.length < 12
  · rw [if_pos hheader, if_pos hheader]
    exact ⟨rfl, hout⟩
  rw [if_neg hheader, if_neg hheader, getElem?_eq_getD (by omega), read16In_eq (by omega),
    read16In_eq (by omega)]
  simp only [Option.bind_eq_bind, Option.bind_some]
  by_cases hrcode : reply.getD 3 0 &&& 0x0F ≠ 0
  · rw [if_pos hrcode, if_pos hrcode]
    exact ⟨rfl, hout⟩
  rw [if_neg hrcode, if_neg hrcode]
  by_cases hnone : read16 reply 6 = 0
  · rw [if_pos hnone, if_pos hnone]
    exact ⟨rfl, hout⟩
  -- counts are 16-bit, so the fuel of the loops is enough
  have hqdcount := (read16 reply 4).toNat_lt
  have hancount := (read16 reply 6).toNat_lt
  rw [if_neg hnone, if_neg hnone, questionsIn_eq (by omega)]
  simp only [Option.bind_some]
  rw [show (0 : UInt16).toNat = 0 from rfl, Nat.sub_zero]
  cases skipQuestions reply (read16 reply 4).toNat 12 with
  | none => exact ⟨rfl, hout⟩
  | some p =>
    -- an address is 16 bytes at most, the size of a slot
    have hsize : (expectedBytes qtype).toNat ≤ 16 := by
      rw [expectedBytes]
      split <;> decide
    obtain ⟨hwalk, hkept⟩ := @recordsIn_eq reply qtype (read16 reply 6) 0 (expectedBytes qtype)
      (2 ^ 16) p ⟨0, 0xffffffff, out.records⟩ hsize hout (by omega)
    rw [show (0 : UInt16).toNat = 0 from rfl, Nat.sub_zero] at hwalk hkept
    simp only [hwalk, Option.bind_some]
    generalize scanRecords reply qtype (expectedBytes qtype) (read16 reply 6).toNat p
      ⟨0, 0xffffffff, out.records⟩ = s at hkept ⊢
    by_cases hbad : s.count = 0 ∨ s.minTtl = 0 ∨ s.minTtl = 0xffffffff
    · rw [if_pos hbad, if_pos hbad]
      exact ⟨rfl, hkept⟩
    · rw [if_neg hbad, if_neg hbad]
      exact ⟨rfl, hkept⟩

/-- A reply that claims everything and holds nothing. -/
theorem parse_answer_records_in_bounds_claims :
    let reply := [0, 7, 0x81, 0x80, 0, 0, 0xff, 0xff, 0, 0, 0, 0, 0xc0]
    parseAnswerRecordsIn reply 1 Answer.cleared =
        some (parseAnswerRecords reply 1 Answer.cleared) ∧
      RecordSlots (parseAnswerRecords reply 1 Answer.cleared).2.records :=
  parse_answer_records_in_bounds _ 1 ⟨rfl, by decide⟩

end Nyet
