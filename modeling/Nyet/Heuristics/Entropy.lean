import Nyet.Blocklist.Text
import Nyet.Lib.Shannon
import Nyet.Packet.Query

/-!
# The entropy of a label (`is_suspicious_label`)

The symbols of a label are counted, and each different one is noted in an array of 64. The
entropy is a difference of two unsigned numbers, both read off a table of 64 logarithms. There
is no check for either size in front of the loop: what keeps the accesses within the arrays is
that a label of a parsed query has only 37 symbols to choose from, and what keeps the difference
from wrapping is that the table is monotone (`isSuspiciousLabel_spec`).

The table has the binary logarithms of the numbers to 63 at a scale of 2^20, each rounded down
(`floorLog_logAt`). So the difference that is compared with 3670016 is the Shannon entropy of
the label at that scale, and the threshold is 3.5 bits to within a unit of 2^-20.
-/

namespace Nyet

/-- `HEUR_MAX_LABELS` -/
def heurMaxLabels : Nat := 32

/-- `split_labels` into a buffer of 256 bytes: the first labels of the domain, in lower
case. -/
def splitLabels (domain : CStr) : List CStr :=
  (((domain.take 255).map lowerByte).splitOn dot).take heurMaxLabels

/-- The labels `compute_heuristic_score` looks at: all but the last, or the only one. -/
def scoredLabels (domain : CStr) : List CStr :=
  let labels := splitLabels domain
  let nonTldCount := if 1 < labels.length then labels.length - 1 else labels.length
  labels.take nonTldCount

/-- `L_LOG2` -/
def lLog2 : List UInt64 :=
  [0, 0, 1048576, 1661953, 2097152, 2434718, 2710529, 2943724, 3145728, 3323907, 3483294, 3627476,
   3759105, 3880192, 3992300, 4096671, 4194304, 4286015, 4372483, 4454274, 4531870, 4605678,
   4676052, 4743298, 4807681, 4869436, 4928768, 4985860, 5040876, 5093962, 5145247, 5194851,
   5242880, 5289430, 5334591, 5378443, 5421059, 5462507, 5502850, 5542145, 5580446, 5617800,
   5654254, 5689850, 5724628, 5758625, 5791874, 5824408, 5856257, 5887449, 5918012, 5947969,
   5977344, 6006159, 6034436, 6062195, 6089452, 6116228, 6142538, 6168398, 6193823, 6218828,
   6243427, 6267632]

/-- The local variables of the first loop: what is written of `present`, `freq` and `len`. -/
structure LabelScan where
  present : CStr
  freq : UInt8 → Nat
  len : Nat

/-- One round of it; `none` is a write behind `present[63]`. -/
def LabelScan.read (s : LabelScan) (c : UInt8) : Option LabelScan :=
  let count : LabelScan → LabelScan := fun s =>
    { s with freq := Function.update s.freq c (s.freq c + 1), len := s.len + 1 }
  if s.freq c = 0 then
    if s.present.length < 64 then some (count { s with present := s.present ++ [c] }) else none
  else some (count s)

/-- The first loop. -/
def scanLabel (label : CStr) : Option LabelScan := label.foldlM LabelScan.read ⟨[], fun _ => 0, 0⟩

/-- The second loop, with `sum_f_log2`; `none` is a read behind `L_LOG2[63]`. -/
def sumFLog2 (freq : UInt8 → Nat) : CStr → UInt64 → Option UInt64
  | [], sum => some sum
  | c :: rest, sum => do
    let log ← lLog2[freq c]?
    sumFLog2 freq rest (sum + (freq c).toUInt64 * log)

/-- The operands of the subtraction, `L_LOG2[len]` and `sum_f_log2 / len`; `none` is an access
outside of the table or a division by zero. -/
def entropyOperands (s : LabelScan) : Option (UInt64 × UInt64) := do
  let sum ← sumFLog2 s.freq s.present 0
  let log ← lLog2[s.len]?
  if s.len = 0 then none else some (log, sum / s.len.toUInt64)

/-- `is_suspicious_label` -/
def isSuspiciousLabel (label : CStr) : Option Bool := do
  let s ← scanLabel label
  if s.len < 12 then some false
  else if 63 ≤ s.len then some true
  else
    let (log, mean) ← entropyOperands s
    some (3670016 < log - mean)

/-! ## The labels of a parsed query -/

/-- A label of a parsed query has letters, digits and hyphens only. -/
theorem scoredLabels_bytes {maxLen : Nat} {domain label : CStr} (hdomain : WireName maxLen domain)
    (hlabel : label ∈ scoredLabels domain) : ∀ c ∈ label, isNameByte c = true := by
  intro c hc
  have hpiece := List.mem_of_mem_take (List.mem_of_mem_take hlabel)
  obtain ⟨b, hb, rfl⟩ := List.mem_map.mp (mem_of_mem_splitOn hpiece hc)
  rcases hdomain.bytes b (List.mem_of_mem_take hb) with hname | rfl
  · rwa [(lowerByte_of_isNameByte hname).1]
  · -- a dot ends a label
    exact absurd hc (not_mem_of_mem_splitOn hpiece)

/-- All of them. -/
def nameBytes : CStr := cstr "abcdefghijklmnopqrstuvwxyz0123456789-"

theorem mem_nameBytes : ∀ c, isNameByte c = true → c ∈ nameBytes := forall_byte (by decide +kernel)

/-! ## Counting -/

/-- The first loop behind a part of the label: every symbol with its frequency, and noted
once. -/
structure LabelScan.Counts (s : LabelScan) (front : CStr) : Prop where
  freq : s.freq = fun c => front.count c
  len : s.len = front.length
  nodup : s.present.Nodup
  mem : ∀ c, c ∈ s.present ↔ c ∈ front

/-- **One round counts its symbol**, and there is room to note it. -/
theorem LabelScan.Counts.read {s : LabelScan} {front : CStr} (h : s.Counts front)
    (hfront : ∀ c ∈ front, isNameByte c = true) (c : UInt8) :
    ∃ s', s.read c = some s' ∧ s'.Counts (front ++ [c]) := by
  have hfreq : Function.update s.freq c (s.freq c + 1) = fun b => (front ++ [c]).count b := by
    funext b
    rw [h.freq, List.count_append, List.count_singleton, Function.update_apply]
    by_cases hb : b = c
    · simp [hb]
    · simp [hb, Ne.symm hb]
  have hlen : s.len + 1 = (front ++ [c]).length := by
    rw [h.len, List.length_append, List.length_singleton]
  rw [LabelScan.read]
  by_cases hnew : s.freq c = 0
  · have hc : c ∉ s.present := by
      rw [h.mem, ← List.count_eq_zero]
      rwa [h.freq] at hnew
    -- there are only 37 symbols to note
    have hroom : s.present.length < 64 := by
      have hsubset : s.present ⊆ nameBytes := fun b hb => mem_nameBytes b (hfront b ((h.mem b).mp hb))
      exact Nat.lt_of_le_of_lt (List.subperm_of_subset h.nodup hsubset).length_le (by decide)
    rw [if_pos hnew, if_pos hroom]
    refine ⟨_, rfl, hfreq, hlen, ?_, fun b => ?_⟩
    · exact List.nodup_append.mpr ⟨h.nodup, List.nodup_singleton c, fun a ha b hb => by
        rintro rfl
        exact hc (List.mem_singleton.mp hb ▸ ha)⟩
    · show b ∈ s.present ++ [c] ↔ b ∈ front ++ [c]
      rw [List.mem_append, List.mem_append, h.mem]
  · have hc : c ∈ front := by
      rw [← List.count_pos_iff]
      rw [h.freq] at hnew
      exact Nat.pos_of_ne_zero hnew
    rw [if_neg hnew]
    refine ⟨_, rfl, hfreq, hlen, h.nodup, fun b => ?_⟩
    rw [List.mem_append, List.mem_singleton, ← h.mem]
    refine ⟨Or.inl, ?_⟩
    rintro (hb | rfl)
    · exact hb
    · exact (h.mem b).mpr hc

/-- **The first loop counts the label.** -/
theorem scanLabel_counts {label : CStr} (hlabel : ∀ c ∈ label, isNameByte c = true) :
    ∃ s, scanLabel label = some s ∧ s.Counts label := by
  have hrest : ∀ (rest front : CStr) (s : LabelScan), s.Counts front →
      (∀ c ∈ front ++ rest, isNameByte c = true) →
      ∃ s', rest.foldlM LabelScan.read s = some s' ∧ s'.Counts (front ++ rest) := by
    intro rest
    induction rest with
    | nil =>
      intro front s h _
      exact ⟨s, rfl, by rwa [List.append_nil]⟩
    | cons c rest ih =>
      intro front s h hbytes
      obtain ⟨s', hread, h'⟩ := h.read (fun b hb => hbytes b (List.mem_append_left _ hb)) c
      rw [List.append_cons] at hbytes ⊢
      obtain ⟨s'', hfold, h''⟩ := ih (front ++ [c]) s' h' hbytes
      refine ⟨s'', ?_, h''⟩
      rw [List.foldlM_cons, hread]
      exact hfold
  have hstart : LabelScan.Counts ⟨[], fun _ => 0, 0⟩ [] :=
    ⟨rfl, rfl, List.nodup_nil, fun _ => Iff.rfl⟩
  exact hrest label [] _ hstart hlabel

/-- Each symbol is noted once, so that the frequencies of the noted ones add up. -/
theorem LabelScan.Counts.sum_freq {s : LabelScan} {label : CStr} (h : s.Counts label) :
    (s.present.map s.freq).sum = label.length := by
  have hperm : s.present.Perm label.dedup := by
    refine (List.perm_ext_iff_of_nodup h.nodup label.nodup_dedup).mpr fun c => ?_
    rw [h.mem, List.mem_dedup]
  rw [h.freq, (hperm.map _).sum_eq]
  exact List.sum_map_count_dedup_eq_length label

theorem LabelScan.Counts.freq_le {s : LabelScan} {label : CStr} (h : s.Counts label) (c : UInt8) :
    s.freq c ≤ label.length := by
  rw [h.freq]
  exact List.count_le_length

/-! ## The table -/

/-- An entry of the table. -/
def logAt (n : Nat) : Nat := (lLog2.getD n 0).toNat

theorem lLog2_get {n : Nat} (h : n < 64) : ∃ log, lLog2[n]? = some log ∧ log.toNat = logAt n := by
  have hlt : n < lLog2.length := h
  refine ⟨lLog2[n], List.getElem?_eq_getElem hlt, ?_⟩
  rw [logAt, List.getD_eq_getElem?_getD, List.getElem?_eq_getElem hlt, Option.getD_some]

/-- **The table is monotone.** -/
theorem logAt_mono {i j : Nat} (hij : i ≤ j) (hj : j < 64) : logAt i ≤ logAt j := by
  have hall : ∀ j < 64, ∀ i < j + 1, logAt i ≤ logAt j := by decide +kernel
  exact hall j hj i (Nat.lt_succ_of_le hij)

theorem logAt_lt {n : Nat} (h : n < 64) : logAt n < 2 ^ 23 := by
  have hall : ∀ n < 64, logAt n < 2 ^ 23 := by decide +kernel
  exact hall n h

/-- What each symbol adds is no more than if all of the label were that symbol. -/
theorem sum_log_le {freq : UInt8 → Nat} {n : Nat} (hn : n < 64) (l : CStr)
    (hfreq : ∀ c ∈ l, freq c ≤ n) :
    (l.map fun c => freq c * logAt (freq c)).sum ≤ (l.map freq).sum * logAt n := by
  induction l with
  | nil => exact Nat.zero_le _
  | cons c l ih =>
    have hc := Nat.mul_le_mul_left (freq c) (logAt_mono (hfreq c List.mem_cons_self) hn)
    have hl := ih fun b hb => hfreq b (List.mem_cons_of_mem _ hb)
    rw [List.map_cons, List.map_cons, List.sum_cons, List.sum_cons, Nat.add_mul]
    exact Nat.add_le_add hc hl

/-- **The second loop adds up** without going over the table or over 64 bits. -/
theorem sumFLog2_eq {freq : UInt8 → Nat} {n : Nat} (hn : n < 64) (l : CStr) (sum : UInt64)
    (hfreq : ∀ c ∈ l, freq c ≤ n) (hroom : sum.toNat + (l.map freq).sum * logAt n < 2 ^ 64) :
    ∃ total, sumFLog2 freq l sum = some total ∧
      total.toNat = sum.toNat + (l.map fun c => freq c * logAt (freq c)).sum := by
  induction l generalizing sum with
  | nil => exact ⟨sum, rfl, rfl⟩
  | cons c l ih =>
    have hcn := hfreq c List.mem_cons_self
    obtain ⟨log, hget, hlog⟩ := lLog2_get (Nat.lt_of_le_of_lt hcn hn)
    -- each logarithm is at most that of the whole, which is what the room was reckoned with
    have hc := Nat.mul_le_mul_left (freq c) (logAt_mono hcn hn)
    rw [List.map_cons, List.sum_cons, Nat.add_mul] at hroom
    have hlong : (freq c).toUInt64.toNat = freq c := UInt64.toNat_ofNat_of_lt' (by
      show freq c < 2 ^ 64
      omega)
    have hnext : (sum + (freq c).toUInt64 * log).toNat =
        sum.toNat + freq c * logAt (freq c) := by
      rw [UInt64.toNat_add, UInt64.toNat_mul, hlong, hlog]
      rw [Nat.mod_eq_of_lt (by omega), Nat.mod_eq_of_lt (by omega)]
    obtain ⟨total, htotal, hsum⟩ := ih (sum + (freq c).toUInt64 * log)
      (fun b hb => hfreq b (List.mem_cons_of_mem _ hb)) (by rw [hnext]; omega)
    refine ⟨total, ?_, ?_⟩
    · rw [sumFLog2, hget]
      exact htotal
    · rw [hsum, hnext, List.map_cons, List.sum_cons, Nat.add_assoc]

/-- **The difference does not wrap.** -/
theorem LabelScan.Counts.operands {s : LabelScan} {label : CStr} (h : s.Counts label)
    (hpos : 0 < label.length) (hlen : label.length < 64) :
    ∃ log mean, entropyOperands s = some (log, mean) ∧ mean ≤ log ∧
      log.toNat = logAt label.length ∧
      mean.toNat = (s.present.map fun c => s.freq c * logAt (s.freq c)).sum / label.length := by
  have hlog := logAt_lt hlen
  have hfreq : ∀ c ∈ s.present, s.freq c ≤ label.length := fun c _ => h.freq_le c
  have htop := sum_log_le hlen s.present hfreq
  rw [h.sum_freq] at htop
  -- 64 * 2^23 at most, far below what 64 bits hold
  have hroom : label.length * logAt label.length < 2 ^ 64 := by
    calc label.length * logAt label.length ≤ 64 * 2 ^ 23 :=
          Nat.mul_le_mul (Nat.le_of_lt hlen) (Nat.le_of_lt hlog)
      _ < 2 ^ 64 := by decide
  obtain ⟨total, htotal, hsum⟩ := sumFLog2_eq hlen s.present 0 hfreq (by
    rw [h.sum_freq]
    show 0 + _ < _
    rwa [Nat.zero_add])
  obtain ⟨log, hget, hlogAt⟩ := lLog2_get hlen
  have hlong : label.length.toUInt64.toNat = label.length := UInt64.toNat_ofNat_of_lt' (by
    show label.length < 2 ^ 64
    omega)
  have hmean : (total / label.length.toUInt64).toNat =
      (s.present.map fun c => s.freq c * logAt (s.freq c)).sum / label.length := by
    rw [UInt64.toNat_div, hlong, hsum]
    exact congrArg (· / label.length) (Nat.zero_add _)
  refine ⟨log, total / label.length.toUInt64, ?_, ?_, hlogAt, hmean⟩
  · rw [entropyOperands, htotal, h.len, hget]
    show (if label.length = 0 then none else _) = _
    rw [if_neg (by omega)]
  · rw [UInt64.le_iff_toNat_le, hmean, hlogAt]
    exact Nat.div_le_of_le_mul htop

/-! ## The verdict -/

/-- A label of one symbol has no entropy. -/
theorem LabelScan.Counts.operands_uniform {s : LabelScan} {n : Nat} {c : UInt8}
    (h : s.Counts (List.replicate n c)) (hpos : 0 < n) :
    (s.present.map fun c => s.freq c * logAt (s.freq c)).sum / n = logAt n := by
  have hperm : s.present.Perm [c] := by
    refine (List.perm_ext_iff_of_nodup h.nodup (List.nodup_singleton c)).mpr fun b => ?_
    rw [h.mem, List.mem_replicate, List.mem_singleton]
    exact ⟨fun hb => hb.2, fun hb => ⟨by omega, hb⟩⟩
  have hfreq : s.freq c = n := by
    rw [h.freq]
    exact List.count_replicate_self
  rw [(hperm.map _).sum_eq, List.map_singleton, List.sum_singleton, hfreq]
  exact Nat.mul_div_cancel_left _ hpos

/-- **The entropy test is safe** for every label that is scored of a parsed query: no access
is outside of an array, nothing is divided by zero, the subtraction does not wrap, and a label
of one symbol is no high-entropy label. -/
theorem is_suspicious_label_safe {packet domain label : CStr} {qtype : UInt16}
    (hparsed : parseQuery packet maxDomainLen = some (domain, qtype))
    (hlabel : label ∈ scoredLabels domain) :
    ∃ s verdict, scanLabel label = some s ∧ isSuspiciousLabel label = some verdict ∧
      (12 ≤ label.length → label.length < 63 →
        ∃ log mean, entropyOperands s = some (log, mean) ∧ mean ≤ log) ∧
      (∀ n c, label = List.replicate n c → n < 63 → verdict = false) := by
  obtain ⟨s, hscan, hcounts⟩ :=
    scanLabel_counts (scoredLabels_bytes (parseQuery_wireName hparsed) hlabel)
  have hlen := hcounts.len
  by_cases hshort : label.length < 12
  · refine ⟨s, false, hscan, ?_, fun hlong => by omega, fun n c _ _ => rfl⟩
    rw [isSuspiciousLabel, hscan]
    exact if_pos (hlen ▸ hshort)
  -- 63 bytes and more are suspicious by their length, before the table is looked at
  by_cases hhostile : 63 ≤ label.length
  · refine ⟨s, true, hscan, ?_, fun _ hlt => by omega, fun n c huniform hn => ?_⟩
    · rw [isSuspiciousLabel, hscan]
      show (if s.len < 12 then _ else if 63 ≤ s.len then _ else _) = _
      rw [hlen, if_neg hshort, if_pos hhostile]
    · rw [huniform, List.length_replicate] at hhostile
      omega
  · obtain ⟨log, mean, hoperands, hle, hlog, hmean⟩ := hcounts.operands (by omega) (by omega)
    refine ⟨s, decide (3670016 < log - mean), hscan, ?_, fun _ _ => ⟨log, mean, hoperands, hle⟩,
      fun n c huniform hn => ?_⟩
    · rw [isSuspiciousLabel, hscan]
      show (if s.len < 12 then _ else if 63 ≤ s.len then _ else _) = _
      rw [hlen, if_neg hshort, if_neg hhostile, hoperands]
      rfl
    · subst huniform
      rw [List.length_replicate] at hshort hlog hmean
      rw [hcounts.operands_uniform (by omega)] at hmean
      have hsame : log = mean := UInt64.toNat_inj.mp (hlog.trans hmean.symm)
      rw [hsame, UInt64.sub_self]
      decide

/-- One label of a query. -/
theorem is_suspicious_label_safe_cdn :
    ∃ s verdict, scanLabel (cstr "x7f3k9q2w8z1") = some s ∧
      isSuspiciousLabel (cstr "x7f3k9q2w8z1") = some verdict ∧
      (12 ≤ (cstr "x7f3k9q2w8z1").length → (cstr "x7f3k9q2w8z1").length < 63 →
        ∃ log mean, entropyOperands s = some (log, mean) ∧ mean ≤ log) ∧
      (∀ n c, cstr "x7f3k9q2w8z1" = List.replicate n c → n < 63 → verdict = false) :=
  @is_suspicious_label_safe
    (queryPacket 1 [cstr "x7f3k9q2w8z1", cstr "cdn", cstr "example", cstr "com"] 1)
    (cstr "x7f3k9q2w8z1.cdn.example.com") (cstr "x7f3k9q2w8z1") 1 (by decide +kernel)
    (by decide +kernel)

/-! ## In bits -/

/-- **The table is right**: each entry is the logarithm rounded down. -/
theorem floorLog_logAt {n : Nat} (hpos : 0 < n) (hn : n < 64) :
    Lib.FloorLog ((2 ^ 20 : ℕ) : ℝ) logAt n := by
  have hall : ∀ n < 64, 0 < n → 2 ^ logAt n ≤ n ^ 2 ^ 20 ∧ n ^ 2 ^ 20 < 2 ^ (logAt n + 1) := by
    decide +kernel
  exact Lib.floorLog_of_pow hpos (hall n hn hpos).1 (hall n hn hpos).2

/-- The mean of the logarithms, over each symbol once. -/
theorem LabelScan.Counts.sum_logs {s : LabelScan} {label : CStr} (h : s.Counts label) :
    (s.present.map fun c => s.freq c * logAt (s.freq c)).sum =
      (label.dedup.map fun c => label.count c * logAt (label.count c)).sum := by
  have hperm : s.present.Perm label.dedup := by
    refine (List.perm_ext_iff_of_nodup h.nodup label.nodup_dedup).mpr fun c => ?_
    rw [h.mem, List.mem_dedup]
  rw [h.freq]
  exact (hperm.map _).sum_eq

/-- The verdict on a label of a length that is tested. -/
theorem isSuspiciousLabel_eq {label : CStr} (hbytes : ∀ c ∈ label, isNameByte c = true)
    (hlong : 12 ≤ label.length) (hshort : label.length < 63) :
    isSuspiciousLabel label = some (decide (3670016 < logAt label.length -
        (label.dedup.map fun c => label.count c * logAt (label.count c)).sum / label.length)) ∧
      (label.dedup.map fun c => label.count c * logAt (label.count c)).sum / label.length ≤
        logAt label.length := by
  obtain ⟨s, hscan, hcounts⟩ := scanLabel_counts hbytes
  have hlen := hcounts.len
  obtain ⟨log, mean, hoperands, hle, hlog, hmean⟩ := hcounts.operands (by omega) (by omega)
  rw [hcounts.sum_logs] at hmean
  rw [← hlog, ← hmean]
  refine ⟨?_, hle⟩
  rw [isSuspiciousLabel, hscan]
  show (if s.len < 12 then _ else if 63 ≤ s.len then _ else _) = _
  rw [hlen, if_neg (by omega), if_neg (by omega), hoperands]
  show some (decide (3670016 < log - mean)) = _
  rw [← UInt64.toNat_sub_of_le _ _ hle]
  rfl

/-- **The entropy test** of a parsed query's label, at the lengths at which there is one: it
fires above 3.5 bits and not below, but for labels within 2^-20 bits of the threshold. -/
theorem is_suspicious_label_entropy {packet domain label : CStr} {qtype : UInt16}
    (hparsed : parseQuery packet maxDomainLen = some (domain, qtype))
    (hlabel : label ∈ scoredLabels domain) (hlong : 12 ≤ label.length)
    (hshort : label.length < 63) :
    (isSuspiciousLabel label = some true → 3.5 - 1 / 2 ^ 20 < Lib.shannon label) ∧
      (isSuspiciousLabel label = some false → Lib.shannon label < 3.5 + 1 / 2 ^ 20) := by
  have hbytes := scoredLabels_bytes (parseQuery_wireName hparsed) hlabel
  have hne : label ≠ [] := by
    rintro rfl
    exact absurd hlong (by decide)
  obtain ⟨hhigh, hlow⟩ := Lib.shannon_near hne fun n hpos hn => floorLog_logAt hpos (by omega)
  obtain ⟨hverdict, hmean⟩ := isSuspiciousLabel_eq hbytes hlong hshort
  rw [hverdict]
  -- both operands are integers by now; the real ones are within one unit of them
  generalize (label.dedup.map fun c => label.count c * logAt (label.count c)).sum / label.length =
    mean at *
  generalize logAt label.length = log at *
  push_cast at hhigh hlow
  constructor
  · intro hfires
    have hmore : 3670017 ≤ log - mean := of_decide_eq_true (Option.some_inj.mp hfires)
    have hreal : (3670017 : ℝ) ≤ log - mean := by
      rw [← Nat.cast_sub hmean]
      exact_mod_cast hmore
    linarith
  · intro hquiet
    have hless : ¬ 3670016 < log - mean := of_decide_eq_false (Option.some_inj.mp hquiet)
    have hreal : (log : ℝ) - mean ≤ 3670016 := by
      rw [← Nat.cast_sub hmean]
      exact_mod_cast not_lt.mp hless
    linarith

/-- A label of twelve different symbols, with more than 3.5 bits. -/
theorem is_suspicious_label_entropy_cdn :
    (isSuspiciousLabel (cstr "x7f3k9q2w8z1") = some true →
        3.5 - 1 / 2 ^ 20 < Lib.shannon (cstr "x7f3k9q2w8z1")) ∧
      (isSuspiciousLabel (cstr "x7f3k9q2w8z1") = some false →
        Lib.shannon (cstr "x7f3k9q2w8z1") < 3.5 + 1 / 2 ^ 20) :=
  @is_suspicious_label_entropy
    (queryPacket 1 [cstr "x7f3k9q2w8z1", cstr "cdn", cstr "example", cstr "com"] 1)
    (cstr "x7f3k9q2w8z1.cdn.example.com") (cstr "x7f3k9q2w8z1") 1 (by decide +kernel)
    (by decide +kernel) (by decide) (by decide)

end Nyet
