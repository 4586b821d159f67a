import Nyet.Packet.Answers

/-!
# The answer section, and what `parse_answer_records` keeps of it

`answerSection` is the records of a reply, in order. The walk of `parse_answer_records`
stores the first eight with the type, the class and the size that it looks for, and
folds the least TTL over these alone (`parseAnswerRecords_eq`). It stores as it goes, so
that a reply refused for the TTL has left its data behind.
-/

namespace Nyet

/-- A resource record, as far as the walk reads it. -/
structure SeenRecord where
  type : UInt16
  class_ : UInt16
  ttl : UInt32
  rdata : CStr
  deriving DecidableEq

/-- The record at an offset and the offset behind it, if it fits. -/
def recordAt (reply : CStr) (p : Nat) : Option (SeenRecord × Nat) :=
  match skipDnsName reply (reply.length + 1) p with
  | none => none
  | some p =>
    let rdlength := (read16 reply (p + 8)).toNat
    if reply.length < p + 10 + rdlength then none
    else
      some (⟨read16 reply p, read16 reply (p + 2), read32 reply (p + 4),
        (reply.drop (p + 10)).take rdlength⟩, p + 10 + rdlength)

/-- The records from an offset on, at most so many, up to the first that does not fit. -/
def recordsFrom (reply : CStr) : Nat → Nat → List SeenRecord
  | 0, _ => []
  | n + 1, p =>
    match recordAt reply p with
    | none => []
    | some (r, p) => r :: recordsFrom reply n p

/-- The answer section of a reply, behind as many questions as the header says. -/
def answerSection (reply : CStr) : List SeenRecord :=
  match skipQuestions reply (read16 reply 4).toNat 12 with
  | none => []
  | some p => recordsFrom reply (read16 reply 6).toNat p

/-- A record to cache: of this type, in class IN, and with an address of its size. -/
def Wanted (qtype : UInt16) (r : SeenRecord) : Prop :=
  r.type = qtype ∧ r.class_ = 1 ∧ r.rdata.length = (expectedBytes qtype).toNat

instance (qtype : UInt16) (r : SeenRecord) : Decidable (Wanted qtype r) :=
  inferInstanceAs (Decidable (_ ∧ _))

/-- The first eight records to cache. -/
def keptOf (qtype : UInt16) (rs : List SeenRecord) : List SeenRecord :=
  (rs.filter (Wanted qtype)).take answerCacheMaxRecords.toNat

/-- The other records: not to be cached, or behind the first eight. -/
def passedOver (qtype : UInt16) (rs : List SeenRecord) : List SeenRecord :=
  rs.filter (¬ Wanted qtype ·) ++ (rs.filter (Wanted qtype)).drop answerCacheMaxRecords.toNat

/-- `min_ttl` -/
def minTtlOf (rs : List SeenRecord) : UInt32 :=
  rs.foldl (fun least r => if r.ttl < least then r.ttl else least) 0xffffffff

/-- The slots, the first ones of them written over from the front. -/
def fillSlots : List CStr → List CStr → List CStr
  | slot :: slots, rdata :: rdatas => (rdata ++ slot.drop rdata.length) :: fillSlots slots rdatas
  | slots, _ => slots

/-! ## The least TTL -/

/-- The least of the TTLs of some records. -/
def IsLeastTtl (rs : List SeenRecord) (ttl : UInt32) : Prop :=
  IsLeast {x | ∃ r ∈ rs, r.ttl = x} ttl

theorem IsLeastTtl.unique {rs : List SeenRecord} {a b : UInt32} (ha : IsLeastTtl rs a)
    (hb : IsLeastTtl rs b) : a = b :=
  UInt32.le_antisymm (ha.2 hb.1) (hb.2 ha.1)

theorem minTtlOf_append (rs : List SeenRecord) (r : SeenRecord) :
    minTtlOf (rs ++ [r]) = if r.ttl < minTtlOf rs then r.ttl else minTtlOf rs := by
  rw [minTtlOf, List.foldl_append]
  rfl

theorem minTtlOf_le {rs : List SeenRecord} {r : SeenRecord} (h : r ∈ rs) :
    minTtlOf rs ≤ r.ttl := by
  induction rs using List.reverseRecOn with
  | nil => cases h
  | append_singleton rs last ih =>
    rw [minTtlOf_append]
    rcases List.mem_append.mp h with hr | hr
    · have hle := ih hr
      split
      · next hlt => exact UInt32.le_trans (UInt32.le_of_lt hlt) hle
      · exact hle
    · rw [List.mem_singleton.mp hr]
      split
      · exact UInt32.le_refl _
      · next hnot => exact UInt32.not_lt.mp hnot

/-- **The minimum is taken**, also where every TTL is `UINT32_MAX`, from which it starts. -/
theorem minTtlOf_isLeast {rs : List SeenRecord} (h : rs ≠ []) : IsLeastTtl rs (minTtlOf rs) := by
  refine ⟨?_, fun x hx => ?_⟩
  · induction rs using List.reverseRecOn with
    | nil => exact absurd rfl h
    | append_singleton rs last ih =>
      rw [minTtlOf_append]
      split
      · exact ⟨last, by simp, rfl⟩
      · next hnot =>
        by_cases hrs : rs = []
        · -- nothing is below `UINT32_MAX` but what the first branch takes
          refine ⟨last, by simp, UInt32.le_antisymm ?_ (UInt32.not_lt.mp hnot)⟩
          rw [hrs, UInt32.le_iff_toNat_le]
          exact Nat.le_of_lt_succ last.ttl.toNat_lt
        · obtain ⟨r, hr, hmin⟩ := ih hrs
          exact ⟨r, List.mem_append_left _ hr, hmin⟩
  · obtain ⟨r, hr, rfl⟩ := hx
    exact minTtlOf_le hr

theorem minTtlOf_eq_zero_iff (rs : List SeenRecord) :
    minTtlOf rs = 0 ↔ ∃ r ∈ rs, r.ttl = 0 := by
  constructor
  · intro h
    have hne : rs ≠ [] := by
      rintro rfl
      exact absurd h (by decide)
    exact h ▸ (minTtlOf_isLeast hne).1
  · rintro ⟨r, hr, hzero⟩
    exact UInt32.le_antisymm (hzero ▸ minTtlOf_le hr) UInt32.zero_le

theorem minTtlOf_eq_max_iff (rs : List SeenRecord) :
    minTtlOf rs = 0xffffffff ↔ ∀ r ∈ rs, r.ttl = 0xffffffff := by
  have hmax : ∀ x : UInt32, x ≤ 0xffffffff := fun x =>
    UInt32.le_iff_toNat_le.mpr (Nat.le_of_lt_succ x.toNat_lt)
  constructor
  · intro h r hr
    exact UInt32.le_antisymm (hmax r.ttl) (h ▸ minTtlOf_le hr)
  · intro h
    by_cases hrs : rs = []
    · rw [hrs]
      rfl
    · obtain ⟨r, hr, hmin⟩ := (minTtlOf_isLeast hrs).1
      rw [← hmin, h r hr]

/-! ## The slots -/

theorem fillSlots_nil (slots : List CStr) : fillSlots slots [] = slots := by
  cases slots <;> rfl

/-- Filling one more slot. -/
theorem fillSlots_append : ∀ (slots rdatas : List CStr) (rdata : CStr),
    fillSlots slots (rdatas ++ [rdata]) =
      (fillSlots slots rdatas).set rdatas.length
        (rdata ++ ((fillSlots slots rdatas).getD rdatas.length []).drop rdata.length)
  | [], rdatas, rdata => by cases rdatas <;> rfl
  | slot :: slots, [], rdata => by
    rw [List.nil_append, fillSlots, fillSlots_nil]
    rfl
  | slot :: slots, other :: rdatas, rdata => by
    rw [List.cons_append, fillSlots, fillSlots, fillSlots_append slots rdatas rdata]
    rfl

/-- **Filling changes nothing** exactly where every slot begins with its data already. -/
theorem fillSlots_eq_self_iff : ∀ {slots rdatas : List CStr},
    fillSlots slots rdatas = slots ↔ ∀ pair ∈ rdatas.zip slots, pair.1 <+: pair.2
  | [], rdatas => by simp [fillSlots]
  | slot :: slots, [] => by simp [fillSlots]
  | slot :: slots, rdata :: rdatas => by
    have hslot : rdata ++ slot.drop rdata.length = slot ↔ rdata <+: slot := by
      constructor
      · exact fun h => ⟨_, h⟩
      · rintro ⟨rest, rfl⟩
        rw [List.drop_left]
    rw [fillSlots, List.cons.injEq, hslot, fillSlots_eq_self_iff, List.zip_cons_cons,
      List.forall_mem_cons]

/-- The data read back from the slots it was filled into. -/
theorem fillSlots_take {n : Nat} : ∀ {slots rdatas : List CStr}, rdatas.length ≤ slots.length →
    (∀ rdata ∈ rdatas, rdata.length = n) →
    ((fillSlots slots rdatas).take rdatas.length).map (·.take n) = rdatas
  | slots, [], _, _ => by
    rw [List.length_nil, List.take_zero, List.map_nil]
  | [], rdata :: rdatas, hroom, _ => absurd hroom (by simp)
  | slot :: slots, rdata :: rdatas, hroom, hn => by
    have hrest := @fillSlots_take n slots rdatas (Nat.le_of_succ_le_succ hroom)
      fun d hd => hn d (List.mem_cons_of_mem _ hd)
    rw [fillSlots, List.length_cons, List.take_succ_cons, List.map_cons, hrest,
      ← hn rdata List.mem_cons_self, List.take_left]

/-- So is the data of records that are all to be cached. -/
theorem fillSlots_wanted {qtype : UInt16} {slots : List CStr} {kept : List SeenRecord}
    (hroom : kept.length ≤ slots.length) (hwanted : ∀ r ∈ kept, Wanted qtype r) :
    ((fillSlots slots (kept.map (·.rdata))).take kept.length).map
      (·.take (expectedBytes qtype).toNat) = kept.map (·.rdata) := by
  have hlen : (kept.map (·.rdata)).length = kept.length := List.length_map _
  rw [← hlen]
  refine fillSlots_take ?_ fun rdata hrdata => ?_
  · rwa [hlen]
  · obtain ⟨r, hr, rfl⟩ := List.mem_map.mp hrdata
    exact (hwanted r hr).2.2

/-! ## The loop over the records -/

/-- `memcpy(out->records[count], p, n)`, for one record after the other. -/
def RecordScan.storeAll (s : RecordScan) (rs : List SeenRecord) : RecordScan :=
  rs.foldl (fun s r => s.store r.rdata r.ttl) s

/-- What one round does with a record. -/
def RecordScan.take (qtype : UInt16) (s : RecordScan) (r : SeenRecord) : RecordScan :=
  if Wanted qtype r then s.store r.rdata r.ttl else s

/-- **One round of the loop** reads the record at its offset, or ends the loop. -/
theorem scanRecords_succ {reply : CStr} {qtype : UInt16} {n p : Nat} {s : RecordScan}
    (h : ¬ answerCacheMaxRecords ≤ s.count) :
    scanRecords reply qtype (expectedBytes qtype) (n + 1) p s =
      match recordAt reply p with
      | none => s
      | some (r, p) => scanRecords reply qtype (expectedBytes qtype) n p (s.take qtype r) := by
  rw [scanRecords, if_neg h, recordAt]
  cases skipDnsName reply (reply.length + 1) p with
  | none => rfl
  | some p =>
    dsimp only
    by_cases hfields : reply.length < p + 10
    · rw [if_pos hfields, if_pos (by omega)]
    rw [if_neg hfields]
    by_cases hrdata : reply.length < p + 10 + (read16 reply (p + 8)).toNat
    · rw [if_pos hrdata, if_pos hrdata]
    rw [if_neg hrdata, if_neg hrdata]
    dsimp only
    have hlen : ((reply.drop (p + 10)).take (read16 reply (p + 8)).toNat).length =
        (read16 reply (p + 8)).toNat := by
      rw [List.length_take, List.length_drop]
      omega
    -- the code compares the size before it looks at the data
    have hwanted : Wanted qtype ⟨read16 reply p, read16 reply (p + 2), read32 reply (p + 4),
        (reply.drop (p + 10)).take (read16 reply (p + 8)).toNat⟩ ↔
        read16 reply p = qtype ∧ read16 reply (p + 2) = 1 ∧
          (read16 reply (p + 8)).toNat = (expectedBytes qtype).toNat := by
      rw [Wanted, hlen]
    congr 1
    refine if_ctx_congr hwanted.symm (fun h => ?_) fun _ => rfl
    rw [← (hwanted.mp h).2.2]

theorem RecordScan.store_count {s : RecordScan} (h : ¬ answerCacheMaxRecords ≤ s.count)
    (rdata : CStr) (ttl : UInt32) : (s.store rdata ttl).count.toNat = s.count.toNat + 1 := by
  have hone : (1 : UInt8).toNat = 1 := rfl
  have height : answerCacheMaxRecords.toNat = 8 := rfl
  rw [UInt8.le_iff_toNat_le] at h
  show (s.count + 1).toNat = s.count.toNat + 1
  rw [UInt8.toNat_add, Nat.mod_eq_of_lt (by omega), hone]

/-- **The walk stores the records to cache** that it comes by, until there are eight. -/
theorem scanRecords_eq {reply : CStr} {qtype : UInt16} {n p : Nat} {s : RecordScan}
    (h : s.count ≤ answerCacheMaxRecords) :
    scanRecords reply qtype (expectedBytes qtype) n p s =
      s.storeAll (((recordsFrom reply n p).filter (Wanted qtype)).take (8 - s.count.toNat)) := by
  have height : answerCacheMaxRecords.toNat = 8 := rfl
  induction n generalizing p s with
  | zero =>
    rw [scanRecords, recordsFrom, List.filter_nil, List.take_nil]
    rfl
  | succ n ih =>
    by_cases hfull : answerCacheMaxRecords ≤ s.count
    · have hnone : 8 - s.count.toNat = 0 := Nat.sub_eq_zero_of_le (UInt8.le_iff_toNat_le.mp hfull)
      rw [scanRecords, if_pos hfull, hnone, List.take_zero]
      rfl
    rw [scanRecords_succ hfull, recordsFrom]
    cases recordAt reply p with
    | none =>
      show s = s.storeAll ((List.filter (Wanted qtype ·) []).take (8 - s.count.toNat))
      rw [List.filter_nil, List.take_nil]
      rfl
    | some read =>
      obtain ⟨r, p⟩ := read
      show scanRecords reply qtype (expectedBytes qtype) n p (s.take qtype r) =
        s.storeAll (((r :: recordsFrom reply n p).filter (Wanted qtype ·)).take (8 - s.count.toNat))
      rw [RecordScan.take, List.filter_cons]
      by_cases hwanted : Wanted qtype r
      · -- one place less for the rest
        have hcount := RecordScan.store_count hfull r.rdata r.ttl
        rw [UInt8.le_iff_toNat_le] at hfull
        have hroom : 8 - s.count.toNat = 8 - (s.count.toNat + 1) + 1 := by omega
        rw [if_pos hwanted, if_pos (decide_eq_true hwanted), ih, hcount, hroom, List.take_succ_cons]
        · rfl
        · rw [UInt8.le_iff_toNat_le, hcount]
          omega
      · rw [if_neg hwanted, if_neg (by rwa [decide_eq_true_iff]), ih h]

/-- There are never too many records for a byte to count. -/
theorem toNat_toUInt8 {n : Nat} (h : n ≤ 8) : n.toUInt8.toNat = n :=
  UInt8.toNat_ofNat_of_lt' (Nat.lt_of_le_of_lt h (by decide))

/-- **What at most eight stores come to.** -/
theorem storeAll_eq {slots : List CStr} {rs : List SeenRecord} (h : rs.length ≤ 8) :
    RecordScan.storeAll ⟨0, 0xffffffff, slots⟩ rs =
      ⟨rs.length.toUInt8, minTtlOf rs, fillSlots slots (rs.map (·.rdata))⟩ := by
  induction rs using List.reverseRecOn with
  | nil =>
    rw [List.map_nil, fillSlots_nil]
    rfl
  | append_singleton rs r ih =>
    rw [List.length_append, List.length_singleton] at h ⊢
    have hcount := toNat_toUInt8 (Nat.le_of_succ_le h)
    have hnext : (rs.length + 1).toUInt8 = rs.length.toUInt8 + 1 := UInt8.ofNat_add _ _
    have hlen : (rs.map (·.rdata)).length = rs.length := List.length_map _
    rw [RecordScan.storeAll, List.foldl_append]
    show (RecordScan.storeAll _ rs).store r.rdata r.ttl = _
    rw [ih (Nat.le_of_succ_le h), RecordScan.store, hcount, hnext, minTtlOf_append, List.map_append,
      List.map_singleton, fillSlots_append, hlen]

theorem length_keptOf_le (qtype : UInt16) (rs : List SeenRecord) : (keptOf qtype rs).length ≤ 8 :=
  List.length_take_le _ _

/-- The whole loop. -/
theorem scanRecords_start {reply : CStr} {qtype : UInt16} (n p : Nat) (slots : List CStr) :
    scanRecords reply qtype (expectedBytes qtype) n p ⟨0, 0xffffffff, slots⟩ =
      ⟨(keptOf qtype (recordsFrom reply n p)).length.toUInt8,
        minTtlOf (keptOf qtype (recordsFrom reply n p)),
        fillSlots slots ((keptOf qtype (recordsFrom reply n p)).map (·.rdata))⟩ :=
  (scanRecords_eq UInt8.zero_le).trans (storeAll_eq (length_keptOf_le qtype _))

/-! ## The whole walk -/

/-- A reply with a header, and with NOERROR as its RCODE. -/
def NoError (reply : CStr) : Prop := 12 ≤ reply.length ∧ reply.getD 3 0 &&& 0x0F = 0

instance (reply : CStr) : Decidable (NoError reply) := inferInstanceAs (Decidable (_ ∧ _))

/-- `*out` once the loop has ended, and whether its answer is good. -/
def concluded (qtype : UInt16) (kept : List SeenRecord) (out : Answer) : Bool × Answer :=
  let records := fillSlots out.records (kept.map (·.rdata))
  if minTtlOf kept = 0 ∨ minTtlOf kept = 0xffffffff then (false, { out with records := records })
  else (true, ⟨records, kept.length.toUInt8, expectedBytes qtype, minTtlOf kept⟩)

/-- Where nothing is kept the minimum is still `UINT32_MAX`. -/
theorem concluded_nil (qtype : UInt16) (out : Answer) : concluded qtype [] out = (false, out) := by
  have hmax : minTtlOf [] = 0 ∨ minTtlOf [] = 0xffffffff := Or.inr rfl
  rw [concluded, List.map_nil, fillSlots_nil, if_pos hmax]

/-- **`parse_answer_records`, from the answer section.** -/
theorem parseAnswerRecords_eq (reply : CStr) (qtype : UInt16) (out : Answer) :
    parseAnswerRecords reply qtype out =
      if NoError reply then concluded qtype (keptOf qtype (answerSection reply)) out
      else (false, out) := by
  rw [parseAnswerRecords]
  by_cases hsize : reply.length < 12
  · rw [if_pos hsize, if_neg fun h : NoError reply => absurd hsize (Nat.not_lt.mpr h.1)]
  by_cases hrcode : reply.getD 3 0 &&& 0x0F = 0
  · have hok : NoError reply := ⟨Nat.not_lt.mp hsize, hrcode⟩
    rw [if_neg hsize, if_neg (not_not.mpr hrcode), if_pos hok]
    dsimp only
    by_cases hancount : read16 reply 6 = 0
    · have hnothing : answerSection reply = [] := by
        rw [answerSection, hancount]
        cases skipQuestions reply (read16 reply 4).toNat 12 <;> rfl
      rw [if_pos hancount, hnothing]
      exact (concluded_nil qtype out).symm
    rw [if_neg hancount, answerSection]
    cases skipQuestions reply (read16 reply 4).toNat 12 with
    | none => exact (concluded_nil qtype out).symm
    | some p =>
      dsimp only
      rw [scanRecords_start]
      have hkept := length_keptOf_le qtype (recordsFrom reply (read16 reply 6).toNat p)
      -- no records kept is the third way to fail, and it is part of the second: the initial TTL
      have hnone : ∀ kept : List SeenRecord, kept.length ≤ 8 → kept.length.toUInt8 = 0 →
          minTtlOf kept = 0 ∨ minTtlOf kept = 0xffffffff := by
        intro kept hle hzero
        have hlen := toNat_toUInt8 hle
        rw [hzero] at hlen
        rw [List.eq_nil_of_length_eq_zero hlen.symm]
        exact Or.inr rfl
      rw [concluded]
      exact if_congr (or_iff_right_of_imp (hnone _ hkept)) rfl rfl
  · rw [if_neg hsize, if_pos hrcode, if_neg fun h : NoError reply => hrcode h.2]

/-- **What is stored when it returns true**: the records in the slots, and their least TTL. -/
theorem parseAnswerRecords_true {reply : CStr} {qtype : UInt16} {out answer : Answer}
    (h : parseAnswerRecords reply qtype out = (true, answer)) :
    NoError reply ∧ IsLeastTtl (keptOf qtype (answerSection reply)) answer.ttlSeconds := by
  rw [parseAnswerRecords_eq] at h
  by_cases hok : NoError reply
  · rw [if_pos hok, concluded] at h
    by_cases hbad : minTtlOf (keptOf qtype (answerSection reply)) = 0 ∨
        minTtlOf (keptOf qtype (answerSection reply)) = 0xffffffff
    · rw [if_pos hbad] at h
      cases h
    · rw [if_neg hbad] at h
      cases h
      refine ⟨hok, minTtlOf_isLeast fun hnil => hbad (Or.inr ?_)⟩
      rw [hnil]
      rfl
  · rw [if_neg hok] at h
    cases h

/-! ## The lifetime of the whole answer -/

theorem mem_iff_kept_or_passedOver {qtype : UInt16} {rs : List SeenRecord} {r : SeenRecord} :
    r ∈ rs ↔ r ∈ keptOf qtype rs ∨ r ∈ passedOver qtype rs := by
  have hsplit : r ∈ rs.filter (Wanted qtype) ↔ r ∈ keptOf qtype rs ∨
      r ∈ (rs.filter (Wanted qtype)).drop answerCacheMaxRecords.toNat := by
    rw [keptOf, ← List.mem_append, List.take_append_drop]
  rw [passedOver, List.mem_append, or_left_comm, ← hsplit, List.mem_filter, List.mem_filter,
    decide_eq_true_iff, decide_eq_true_iff]
  tauto

/-- **When the lifetime covers the whole answer**: exactly if no record that is passed
over has a TTL below those of all the records that are kept. -/
theorem ttl_covers_answer_iff {reply : CStr} {qtype : UInt16} {out answer : Answer}
    (h : parseAnswerRecords reply qtype out = (true, answer)) :
    (∀ r ∈ answerSection reply, answer.ttlSeconds ≤ r.ttl) ↔
      ∀ r ∈ passedOver qtype (answerSection reply),
        ∃ k ∈ keptOf qtype (answerSection reply), k.ttl ≤ r.ttl := by
  obtain ⟨-, ⟨least, hleast, heq⟩, hlower⟩ := parseAnswerRecords_true h
  constructor
  · intro hall r hr
    have hle := hall r (mem_iff_kept_or_passedOver.mpr (Or.inr hr))
    exact ⟨least, hleast, heq ▸ hle⟩
  · intro hpassed r hr
    rcases mem_iff_kept_or_passedOver.mp hr with hkept | hover
    · exact hlower ⟨r, hkept, rfl⟩
    · obtain ⟨k, hk, hle⟩ := hpassed r hover
      exact UInt32.le_trans (hlower ⟨k, hk, rfl⟩) hle

/-- A reply to a query for `example.com`. -/
def exampleReply (ancount : UInt16) (answers : CStr) : CStr :=
  overwrite (overwrite (queryPacket 7 [cstr "example", cstr "com"] 1) 2 responseFlags) 6
    (wire16 ancount) ++ answers

/-- The alias `cdn.example.com` and its address, with the TTLs of the two. -/
def aliasReply (aliasTtl addressTtl : UInt32) : CStr :=
  exampleReply 2 (recordHeader 5 aliasTtl 6 ++ [3] ++ cstr "cdn" ++ [0xc0, 0x0c] ++
    [0xc0, 0x29] ++ wire16 1 ++ wire16 1 ++ wire32 addressTtl ++ wire16 4 ++ [192, 0, 2, 1])

/-- `*out`, cleared. -/
def Answer.cleared : Answer := ⟨List.replicate 8 (List.replicate 16 0), 0, 0, 0⟩

/-- An alias for five minutes, and its address for one. -/
theorem ttl_covers_answer_alias :
    let reply := aliasReply 300 60
    let answer := (parseAnswerRecords reply 1 Answer.cleared).2
    (∀ r ∈ answerSection reply, answer.ttlSeconds ≤ r.ttl) ↔
      ∀ r ∈ passedOver 1 (answerSection reply),
        ∃ k ∈ keptOf 1 (answerSection reply), k.ttl ≤ r.ttl :=
  @ttl_covers_answer_iff _ 1 Answer.cleared _ (by decide +kernel)

/-- An alias for five seconds, and its address for five minutes, which is kept as long. -/
theorem alias_outlived :
    let reply := aliasReply 5 300
    let (found, answer) := parseAnswerRecords reply 1 Answer.cleared
    found = true ∧ ¬ ∀ r ∈ answerSection reply, answer.ttlSeconds ≤ r.ttl := by
  decide +kernel

/-! ## What is left behind -/

/-- **When a failed parse leaves `*out` untouched**: exactly if it does not get as far as
the check of the TTL with records in its slots that were not there before. -/
theorem failed_parse_untouched_iff (reply : CStr) (qtype : UInt16) (out : Answer) :
    ((parseAnswerRecords reply qtype out).1 = false →
        (parseAnswerRecords reply qtype out).2 = out) ↔
      (NoError reply →
        ((∃ r ∈ keptOf qtype (answerSection reply), r.ttl = 0) ∨
          ∀ r ∈ keptOf qtype (answerSection reply), r.ttl = 0xffffffff) →
        ∀ pair ∈ ((keptOf qtype (answerSection reply)).map (·.rdata)).zip out.records,
          pair.1 <+: pair.2) := by
  rw [parseAnswerRecords_eq]
  by_cases hok : NoError reply
  · rw [if_pos hok, concluded, ← minTtlOf_eq_zero_iff, ← minTtlOf_eq_max_iff,
      ← fillSlots_eq_self_iff]
    generalize keptOf qtype (answerSection reply) = kept
    -- a failure behind the TTL check has its records in the slots already
    by_cases hbad : minTtlOf kept = 0 ∨ minTtlOf kept = 0xffffffff
    · rw [if_pos hbad]
      constructor
      · exact fun h _ _ => congrArg Answer.records (h rfl)
      · intro h _
        have hsame := h hok hbad
        dsimp only
        rw [hsame]
    · rw [if_neg hbad]
      exact ⟨fun _ _ h => absurd h hbad, fun _ h => nomatch h⟩
  · rw [if_neg hok]
    exact ⟨fun _ h => absurd h hok, fun _ _ => rfl⟩

/-- An address not to be cached, which is in the first slot all the same. -/
theorem refused_address_left_behind :
    let reply := exampleReply 1 (recordHeader 1 0 4 ++ [192, 0, 2, 1])
    let (found, answer) := parseAnswerRecords reply 1 Answer.cleared
    found = false ∧ answer ≠ Answer.cleared := by
  decide +kernel

end Nyet
