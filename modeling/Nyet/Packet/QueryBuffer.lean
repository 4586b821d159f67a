import Nyet.Packet.Labels

/-!
# `parse_query` at the buffers

The function once more, this time with its pointers: offsets into the packet and
into the output buffer, every access to either checked (`none` is an access outside
of it), and the bytes of a label lower-cased through `LOWER` one by one.
`parseQueryIn_spec` says that it never leaves its buffers and does what `parseQuery`
says, and `parse_query_grammar` what the packets are that it accepts.
-/

namespace Nyet

/-- `LOWER` -/
def lowerTable : List UInt8 :=
  [0x00, 0x01, 0x02, 0x03, 0x04, 0x05, 0x06, 0x07, 0x08, 0x09, 0x0a, 0x0b, 0x0c, 0x0d, 0x0e, 0x0f,
   0x10, 0x11, 0x12, 0x13, 0x14, 0x15, 0x16, 0x17, 0x18, 0x19, 0x1a, 0x1b, 0x1c, 0x1d, 0x1e, 0x1f,
   0x20, 0x21, 0x22, 0x23, 0x24, 0x25, 0x26, 0x27, 0x28, 0x29, 0x2a, 0x2b, 0x2c, 0x2d, 0x2e, 0x2f,
   0x30, 0x31, 0x32, 0x33, 0x34, 0x35, 0x36, 0x37, 0x38, 0x39, 0x3a, 0x3b, 0x3c, 0x3d, 0x3e, 0x3f,
   0x40, 0x61, 0x62, 0x63, 0x64, 0x65, 0x66, 0x67, 0x68, 0x69, 0x6a, 0x6b, 0x6c, 0x6d, 0x6e, 0x6f,
   0x70, 0x71, 0x72, 0x73, 0x74, 0x75, 0x76, 0x77, 0x78, 0x79, 0x7a, 0x5b, 0x5c, 0x5d, 0x5e, 0x5f,
   0x60, 0x61, 0x62, 0x63, 0x64, 0x65, 0x66, 0x67, 0x68, 0x69, 0x6a, 0x6b, 0x6c, 0x6d, 0x6e, 0x6f,
   0x70, 0x71, 0x72, 0x73, 0x74, 0x75, 0x76, 0x77, 0x78, 0x79, 0x7a, 0x7b, 0x7c, 0x7d, 0x7e, 0x7f,
   0x80, 0x81, 0x82, 0x83, 0x84, 0x85, 0x86, 0x87, 0x88, 0x89, 0x8a, 0x8b, 0x8c, 0x8d, 0x8e, 0x8f,
   0x90, 0x91, 0x92, 0x93, 0x94, 0x95, 0x96, 0x97, 0x98, 0x99, 0x9a, 0x9b, 0x9c, 0x9d, 0x9e, 0x9f,
   0xa0, 0xa1, 0xa2, 0xa3, 0xa4, 0xa5, 0xa6, 0xa7, 0xa8, 0xa9, 0xaa, 0xab, 0xac, 0xad, 0xae, 0xaf,
   0xb0, 0xb1, 0xb2, 0xb3, 0xb4, 0xb5, 0xb6, 0xb7, 0xb8, 0xb9, 0xba, 0xbb, 0xbc, 0xbd, 0xbe, 0xbf,
   0xc0, 0xc1, 0xc2, 0xc3, 0xc4, 0xc5, 0xc6, 0xc7, 0xc8, 0xc9, 0xca, 0xcb, 0xcc, 0xcd, 0xce, 0xcf,
   0xd0, 0xd1, 0xd2, 0xd3, 0xd4, 0xd5, 0xd6, 0xd7, 0xd8, 0xd9, 0xda, 0xdb, 0xdc, 0xdd, 0xde, 0xdf,
   0xe0, 0xe1, 0xe2, 0xe3, 0xe4, 0xe5, 0xe6, 0xe7, 0xe8, 0xe9, 0xea, 0xeb, 0xec, 0xed, 0xee, 0xef,
   0xf0, 0xf1, 0xf2, 0xf3, 0xf4, 0xf5, 0xf6, 0xf7, 0xf8, 0xf9, 0xfa, 0xfb, 0xfc, 0xfd, 0xfe, 0xff]

/-- The loop over the bytes of a label. The result is `p` and `dst` behind it, or
nothing on `return 0`, and the output buffer. -/
def copyLabel (packet : CStr) : Nat → Nat → Nat → CStr → Option (Option (Nat × Nat) × CStr)
  | 0, p, dst, buf => some (some (p, dst), buf)
  | n + 1, p, dst, buf => do
    let c ← packet[p]?
    let lowered ← lowerTable[c.toNat]?
    if isNameByte lowered then
      let buf ← putByte buf dst lowered
      copyLabel packet n (p + 1) (dst + 1) buf
    else some (none, buf)

/-- `if (dst != out_domain) *dst++ = '.'` -/
def putDot (dst : Nat) (buf : CStr) : Option (Nat × CStr) :=
  if dst = 0 then some (dst, buf) else (putByte buf dst dot).map fun buf => (dst + 1, buf)

/-- The loop over the labels; every round consumes a byte. -/
def labelLoop (packet : CStr) (maxLen : Nat) :
    Nat → Nat → Nat → CStr → Option (Option (Nat × Nat) × CStr)
  | 0, _, _, _ => none
  | fuel + 1, p, dst, buf =>
    if packet.length ≤ p then some (some (p, dst), buf)   -- `p < limit` fails
    else do
      let len ← packet[p]?
      if len = 0 then some (some (p, dst), buf)
      -- `len >= (limit - p) || len >= (end - dst)`, behind `p++`
      else if packet.length - (p + 1) ≤ len.toNat ∨ maxLen - 1 - dst ≤ len.toNat then
        some (none, buf)
      else
        let (dst, buf) ← putDot dst buf
        let (copied, buf) ← copyLabel packet len.toNat (p + 1) dst buf
        match copied with
        | none => some (none, buf)
        | some (p, dst) => labelLoop packet maxLen fuel p dst buf

/-- `parse_query`: the qtype if it returns 1, and the output buffer. -/
def parseQueryIn (packet : CStr) (maxLen : Nat) (buf : CStr) : Option (Option UInt16 × CStr) :=
  if packet.length < 12 then some (none, buf)
  else do
    let (ended, buf) ← labelLoop packet maxLen (packet.length + 1) 12 0 buf
    match ended with
    | none => some (none, buf)
    | some (p, dst) =>
      let buf ← putByte buf dst 0
      if packet.length < p + 1 + 2 then some (none, buf)
      else
        let hi ← packet[p + 1]?
        let lo ← packet[p + 2]?
        some (some (be16 hi lo), buf)

/-! ## The bytes -/

/-- The table lower-cases letters and leaves everything else. -/
theorem lowerTable_get : ∀ c : UInt8, lowerTable[c.toNat]? = some (lowerByte c) :=
  forall_byte (by decide +kernel)

/-- `[A-Za-z0-9-]` -/
def IsHostByte (c : UInt8) : Prop :=
  (65 ≤ c.toNat ∧ c.toNat ≤ 90) ∨ (97 ≤ c.toNat ∧ c.toNat ≤ 122) ∨
    (48 ≤ c.toNat ∧ c.toNat ≤ 57) ∨ c.toNat = 45

instance (c : UInt8) : Decidable (IsHostByte c) := inferInstanceAs (Decidable (_ ∨ _ ∨ _ ∨ _))

theorem isNameByte_lowerByte : ∀ c, isNameByte (lowerByte c) = true ↔ IsHostByte c :=
  forall_byte (by decide +kernel)

/-! ## Within the buffers -/

/-- Writing behind a part of the buffer leaves that part, and appends to it. -/
theorem take_succ_set {buf : CStr} {i : Nat} (h : i < buf.length) (b : UInt8) :
    (buf.set i b).take (i + 1) = buf.take i ++ [b] := by
  rw [List.take_add_one, List.take_set_of_le (Nat.le_refl i), List.getElem?_set_self h]
  rfl

/-- **A label is copied or refused**, within the packet and the buffer. -/
theorem copyLabel_spec {packet : CStr} :
    ∀ {n p dst : Nat} {buf : CStr}, p + n ≤ packet.length → dst + n ≤ buf.length →
      ∃ copied buf', copyLabel packet n p dst buf = some (copied, buf') ∧
        buf'.length = buf.length ∧
        if (((packet.drop p).take n).map lowerByte).all isNameByte then
          copied = some (p + n, dst + n) ∧
            buf'.take (dst + n) = buf.take dst ++ ((packet.drop p).take n).map lowerByte
        else copied = none
  | 0, p, dst, buf, _, _ => ⟨_, buf, rfl, rfl, by simp⟩
  | n + 1, p, dst, buf, hp, hdst => by
    have hlt : p < packet.length := by omega
    have hput := putByte_of_lt (by omega : dst < buf.length) (lowerByte packet[p])
    rw [List.drop_eq_getElem_cons hlt, List.take_succ_cons, List.map_cons, List.all_cons,
      copyLabel, List.getElem?_eq_getElem hlt]
    simp only [Option.bind_eq_bind, Option.bind_some, lowerTable_get]
    -- the loop stops at the first byte that no name may hold
    by_cases hbyte : isNameByte (lowerByte packet[p]) = true
    · obtain ⟨copied, buf', hrun, hlen, hrest⟩ := @copyLabel_spec packet n (p + 1)
        (dst + 1) (buf.set dst (lowerByte packet[p])) (by omega) (by rw [List.length_set]; omega)
      rw [if_pos hbyte, hput, Option.bind_some, hbyte, Bool.true_and]
      refine ⟨copied, buf', hrun, by rw [hlen, List.length_set], ?_⟩
      rw [take_succ_set (by omega)] at hrest
      have harith : p + 1 + n = p + (n + 1) ∧ dst + 1 + n = dst + (n + 1) := by omega
      rw [harith.1, harith.2, List.append_assoc, List.singleton_append] at hrest
      exact hrest
    · rw [if_neg hbyte, Bool.not_eq_true _ |>.mp hbyte, Bool.false_and]
      exact ⟨none, buf, rfl, rfl, rfl⟩

/-- The dot goes in front of every label but the first. -/
theorem putDot_spec {dst : Nat} {buf : CStr} (h : dst < buf.length) :
    ∃ dst' buf', putDot dst buf = some (dst', buf') ∧ buf'.length = buf.length ∧
      dst' ≤ dst + 1 ∧ (dst = 0 → dst' = 0) ∧
      buf'.take dst' = if buf.take dst = [] then [] else buf.take dst ++ [dot] := by
  rw [putDot]
  by_cases hdst : dst = 0
  · rw [if_pos hdst]
    refine ⟨dst, buf, rfl, rfl, Nat.le_succ dst, id, ?_⟩
    rw [hdst]
    rfl
  · have hne : buf.take dst ≠ [] := by
      rw [ne_eq, List.take_eq_nil_iff, not_or]
      exact ⟨hdst, List.ne_nil_of_length_pos (by omega)⟩
    rw [if_neg hdst, putByte_of_lt h, if_neg hne]
    exact ⟨dst + 1, _, rfl, List.length_set, Nat.le_refl _, fun h0 => absurd h0 hdst,
      take_succ_set h dot⟩

/-- **The loop over the labels** stays within the buffers and writes what
`parseLabels` says. -/
theorem labelLoop_spec {packet : CStr} {maxLen : Nat} :
    ∀ {fuel p dst : Nat} {buf : CStr}, p ≤ packet.length → packet.length < p + fuel →
      buf.length = maxLen → dst < maxLen →
      ∃ ended buf', labelLoop packet maxLen fuel p dst buf = some (ended, buf') ∧
        buf'.length = maxLen ∧
        ((ended = none ∧ parseLabels maxLen fuel (packet.drop p) (buf.take dst) = none) ∨
          ∃ p' dst', ended = some (p', dst') ∧ p' ≤ packet.length ∧ dst' < maxLen ∧
            parseLabels maxLen fuel (packet.drop p) (buf.take dst) =
              some (buf'.take dst', packet.drop p'))
  | 0, p, _, _, hp, hfuel, _, _ => absurd hfuel (by omega)
  | fuel + 1, p, dst, buf, hp, hfuel, hbuf, hdst => by
    rw [labelLoop]
    by_cases hend : packet.length ≤ p
    · rw [if_pos hend]
      refine ⟨_, buf, rfl, hbuf, Or.inr ⟨p, dst, rfl, hp, hdst, ?_⟩⟩
      rw [List.drop_eq_nil_of_le hend, parseLabels]
    · have hlt : p < packet.length := by omega
      have hout : (buf.take dst).length = dst := List.length_take_of_le (by omega)
      have hrest : (packet.drop (p + 1)).length = packet.length - (p + 1) := List.length_drop
      have hdrop := List.drop_eq_getElem_cons hlt
      rw [if_neg hend, List.getElem?_eq_getElem hlt, hdrop, parseLabels, hout, hrest]
      simp only [Option.bind_eq_bind, Option.bind_some]
      generalize packet[p] = len at hdrop ⊢
      by_cases hzero : len = 0
      · rw [if_pos hzero, if_pos hzero]
        exact ⟨_, buf, rfl, hbuf, Or.inr ⟨p, dst, rfl, hp, hdst, by rw [hdrop]⟩⟩
      · rw [if_neg hzero, if_neg hzero]
        -- the length byte is compared with what is left of the packet and with what is left of the
        -- buffer
        by_cases hroom : packet.length - (p + 1) ≤ len.toNat ∨ maxLen - 1 - dst ≤ len.toNat
        · rw [if_pos hroom, if_pos hroom]
          exact ⟨none, buf, rfl, hbuf, Or.inl ⟨rfl, rfl⟩⟩
        · rw [if_neg hroom, if_neg hroom]
          obtain ⟨dst₁, buf₁, hdot, hlen₁, hle, hfirst, htake₁⟩ := putDot_spec (hbuf ▸ hdst)
          obtain ⟨copied, buf₂, hcopy, hlen₂, hlabel⟩ := @copyLabel_spec packet len.toNat
            (p + 1) dst₁ buf₁ (by omega) (by omega)
          rw [hdot, Option.bind_some, hcopy, Option.bind_some]
          by_cases hall : (((packet.drop (p + 1)).take len.toNat).map lowerByte).all isNameByte = true
          · rw [if_pos hall] at hlabel ⊢
            obtain ⟨rfl, htake₂⟩ := hlabel
            rw [← htake₁, ← htake₂, List.drop_drop]
            exact @labelLoop_spec packet maxLen fuel (p + 1 + len.toNat) (dst₁ + len.toNat) buf₂
              (by omega) (by omega) (by omega) (by omega)
          · rw [if_neg hall] at hlabel ⊢
            subst hlabel
            exact ⟨none, buf₂, rfl, by omega, Or.inl ⟨rfl, rfl⟩⟩

/-- A name and the NUL behind it, read as a string. -/
theorem asCStr_set {buf : CStr} {dst : Nat} (h : dst < buf.length) (hnul : 0 ∉ buf.take dst) :
    asCStr (buf.set dst 0) = buf.take dst := by
  have hkeep : ∀ c ∈ buf.take dst, decide (c ≠ 0) = true := fun c hc =>
    decide_eq_true fun hzero => hnul (hzero ▸ hc)
  rw [List.set_eq_take_append_cons_drop, if_pos h, asCStr, List.takeWhile_append_of_pos hkeep,
    List.takeWhile_cons_of_neg (p := fun c : UInt8 => decide (c ≠ 0)) (by simp), List.append_nil]

theorem WireName.no_nul {maxLen : Nat} {domain : CStr} (h : WireName maxLen domain) :
    0 ∉ domain := fun hmem => by
  rcases h.bytes 0 hmem with hname | hdot
  · exact absurd hname (by decide)
  · exact absurd hdot (by decide)

/-- **`parse_query` stays within its buffers**, and returns and writes what
`parseQuery` says. -/
theorem parseQueryIn_spec {packet : CStr} {maxLen : Nat} {buf : CStr} (hmax : 0 < maxLen)
    (hbuf : buf.length = maxLen) :
    ∃ ret buf', parseQueryIn packet maxLen buf = some (ret, buf') ∧ buf'.length = maxLen ∧
      parseQuery packet maxLen = ret.map fun qtype => (asCStr buf', qtype) := by
  rw [parseQueryIn, parseQuery]
  by_cases hsize : packet.length < 12
  · rw [if_pos hsize, if_pos hsize]
    exact ⟨none, buf, rfl, hbuf, rfl⟩
  · obtain ⟨ended, buf₁, hloop, hlen, hspec⟩ := @labelLoop_spec packet maxLen
      (packet.length + 1) 12 0 buf (by omega) (by omega) hbuf hmax
    rw [List.take_zero] at hspec
    rw [if_neg hsize, if_neg hsize, hloop]
    simp only [Option.bind_eq_bind, Option.bind_some]
    rcases hspec with ⟨rfl, hnone⟩ | ⟨p, dst, rfl, hp, hdst, hsome⟩
    · rw [hnone]
      exact ⟨none, buf₁, rfl, hlen, rfl⟩
    · -- what was written has no NUL of its own
      have hname : asCStr (buf₁.set dst 0) = buf₁.take dst := by
        have hwire := parseLabels_wireName (WireName.nil maxLen) hsome
        exact asCStr_set (hlen ▸ hdst) hwire.no_nul
      dsimp only
      rw [hsome, putByte_of_lt (hlen ▸ hdst)]
      dsimp only [Option.bind_some]
      by_cases hroom : packet.length < p + 1 + 2
      · rw [if_pos hroom]
        refine ⟨none, _, rfl, by rw [List.length_set, hlen], ?_⟩
        have hshort : (packet.drop (p + 1)).length < 2 := by
          rw [List.length_drop]
          omega
        rw [List.drop_drop]
        split
        · next hi lo rest hdrop =>
          rw [hdrop] at hshort
          exact absurd hshort (by simp)
        · rfl
      · have hhi : p + 1 < packet.length := by omega
        have hlo : p + 2 < packet.length := by omega
        rw [if_neg hroom, List.getElem?_eq_getElem hhi, List.getElem?_eq_getElem hlo]
        refine ⟨_, _, rfl, by rw [List.length_set, hlen], ?_⟩
        rw [List.drop_drop, List.drop_eq_getElem_cons hhi, List.drop_eq_getElem_cons hlo,
          Option.map_some, hname]

/-! ## The grammar -/

/-- The labels of a name, lower-cased and joined by dots. -/
def dottedName (labels : List Label) : CStr := [dot].intercalate (labels.map (·.map lowerByte))

/-- From offset 12 on the packet is a name with these labels, of host bytes only, and
the qtype. The name fits: a single label has at most 254 bytes, several 255. -/
structure QuerySpells (packet : CStr) (labels : List Label) (qtype : UInt16) : Prop where
  wire : ∀ label ∈ labels, WireLabel label
  bytes : ∀ label ∈ labels, ∀ c ∈ label, IsHostByte c
  text : ∃ hi lo rest, packet.drop 12 = wireName labels ++ hi :: lo :: rest ∧ qtype = be16 hi lo
  single : labels.length ≤ 1 → (dottedName labels).length ≤ 254
  several : (dottedName labels).length ≤ 255

theorem nameLabel_map_lowerByte {label : Label} (hwire : WireLabel label) :
    NameLabel (label.map lowerByte) ↔ ∀ c ∈ label, IsHostByte c := by
  have hne : label.map lowerByte ≠ [] := by
    rw [ne_eq, List.map_eq_nil_iff]
    exact List.ne_nil_of_length_pos hwire.1
  rw [NameLabel, and_iff_right hne, List.forall_mem_map]
  exact forall₂_congr fun c _ => isNameByte_lowerByte c

theorem intercalate_cons_append (sep a b : CStr) (pieces : List CStr) :
    sep.intercalate ((a ++ b) :: pieces) = a ++ sep.intercalate (b :: pieces) := by
  cases pieces with
  | nil => rw [List.intercalate_singleton, List.intercalate_singleton]
  | cons piece pieces =>
    rw [List.intercalate_cons_cons, List.intercalate_cons_cons]
    simp only [List.append_assoc]

/-- Behind what is written already, the labels are joined to it. -/
theorem foldl_pushLabel {out : CStr} (hout : out ≠ []) (labels : List CStr) :
    labels.foldl pushLabel out = [dot].intercalate (out :: labels) := by
  induction labels generalizing out with
  | nil => rw [List.intercalate_singleton, List.foldl_nil]
  | cons label labels ih =>
    have hpush : pushLabel out label = out ++ ([dot] ++ label) := by
      rw [pushLabel, if_neg hout, List.append_assoc]
    rw [List.foldl_cons, ih (by rw [hpush]; exact List.append_ne_nil_of_left_ne_nil hout _), hpush,
      intercalate_cons_append, intercalate_cons_append, List.intercalate_cons_cons,
      List.append_assoc]

theorem foldl_pushLabel_nil {labels : List CStr} (h : ∀ label ∈ labels, label ≠ []) :
    labels.foldl pushLabel [] = [dot].intercalate labels := by
  cases labels with
  | nil => rfl
  | cons label labels =>
    have hpush : pushLabel [] label = label := by
      rw [pushLabel, if_pos rfl, List.nil_append]
    rw [List.foldl_cons, hpush, foldl_pushLabel (h label List.mem_cons_self)]

/-- What the rounds of the loop write is the dotted name. -/
theorem foldl_pushLabel_labels {labels : List Label}
    (h : ∀ label ∈ labels, NameLabel (label.map lowerByte)) :
    (labels.map (·.map lowerByte)).foldl pushLabel [] = dottedName labels :=
  foldl_pushLabel_nil (List.forall_mem_map.mpr fun label hl => (h label hl).1)

theorem length_le_foldl_pushLabel (out : CStr) (labels : List CStr) :
    out.length ≤ (labels.foldl pushLabel out).length := by
  induction labels generalizing out with
  | nil => exact Nat.le_refl _
  | cons label labels ih =>
    refine Nat.le_trans ?_ (ih (pushLabel out label))
    rw [pushLabel]
    split
    · next hout =>
      rw [hout]
      exact Nat.zero_le _
    · rw [List.length_append, List.length_append]
      omega

/-- **Labels that fit are read to the end.** -/
theorem parseLabels_spelled {maxLen : Nat} {after : CStr} :
    ∀ {labels : List Label} {fuel : Nat} {out : CStr},
      ((labels.map wireLabel).flatten ++ 0 :: after).length < fuel →
      (∀ label ∈ labels, WireLabel label) →
      (∀ label ∈ labels, NameLabel (label.map lowerByte)) →
      (out = [] → ∀ label ∈ labels.head?, label.length < maxLen - 1) →
      ((labels.map (·.map lowerByte)).foldl pushLabel out).length ≤ maxLen - 1 →
      parseLabels maxLen fuel ((labels.map wireLabel).flatten ++ 0 :: after) out =
        some ((labels.map (·.map lowerByte)).foldl pushLabel out, 0 :: after)
  | [], 0, _, hfuel, _, _, _, _ => absurd hfuel (Nat.not_lt_zero _)
  | [], fuel + 1, out, _, _, _, _, _ => parseLabels_cons.mpr (Or.inl ⟨rfl, rfl⟩)
  | label :: labels, 0, _, hfuel, _, _, _, _ => absurd hfuel (Nat.not_lt_zero _)
  | label :: labels, fuel + 1, out, hfuel, hwire, hname, hfirst, hfits => by
    have hlabel := hwire label List.mem_cons_self
    have hlen := hlabel.toNat_length
    rw [List.map_cons, List.flatten_cons, wireLabel, List.cons_append, List.cons_append,
      List.append_assoc] at hfuel ⊢
    rw [List.map_cons, List.foldl_cons] at hfits
    have hwritten := Nat.le_trans (length_le_foldl_pushLabel _ _) hfits
    rw [List.length_cons, List.length_append] at hfuel
    -- the source checks the room before it writes the dot, and the label has to fit what is left
    have hroom : label.length < maxLen - 1 - out.length := by
      by_cases hout : out = []
      · have hshort := hfirst hout label rfl
        rw [hout, List.length_nil]
        exact hshort
      · rw [pushLabel, if_neg hout, List.length_append, List.length_append, List.length_map,
          List.length_singleton] at hwritten
        omega
    -- from the second label on something is written, so the check of the first does not recur
    have hne : pushLabel out (label.map lowerByte) ≠ [] :=
      List.append_ne_nil_of_right_ne_nil _ (hname label List.mem_cons_self).1
    refine parseLabels_cons.mpr
      (Or.inr ⟨hlabel.length_ne_zero, ?_, by rw [hlen]; exact hroom, ?_, ?_⟩)
    · rw [hlen, List.length_append, List.length_append, List.length_cons]
      omega
    · rw [hlen, List.take_left]
      exact (hname label List.mem_cons_self).2
    · rw [hlen, List.take_left, List.drop_left]
      exact parseLabels_spelled (by omega)
        (fun l hl => hwire l (List.mem_cons_of_mem _ hl))
        (fun l hl => hname l (List.mem_cons_of_mem _ hl)) (fun hnil => absurd hnil hne) hfits

/-- **What `parse_query` accepts, and what it makes of it.** -/
theorem parseQuery_eq_some_iff {packet domain : CStr} {qtype : UInt16} :
    parseQuery packet maxDomainLen = some (domain, qtype) ↔
      ∃ labels, QuerySpells packet labels qtype ∧ domain = dottedName labels := by
  constructor
  · intro h
    obtain ⟨-, zero, hi, lo, rest, hlabels, hqtype⟩ := parseQuery_eq_some.mp h
    obtain ⟨labels, hpacket, hrest, hwire, hname, hjoined⟩ := parseLabels_joins hlabels
    obtain ⟨after, hafter⟩ := hrest.resolve_left (List.cons_ne_nil _ _)
    obtain ⟨rfl, rfl⟩ := List.cons.inj hafter
    rw [foldl_pushLabel_labels hname] at hjoined
    have hshort := (parseQuery_wireName h).short
    rw [hjoined] at hshort
    refine ⟨labels, ⟨hwire, fun label hl => (nameLabel_map_lowerByte (hwire label hl)).mp
      (hname label hl), ⟨hi, lo, rest, ?_, hqtype⟩, fun hcount => ?_, hshort⟩, hjoined⟩
    · rw [hpacket, wireName, List.append_assoc, List.singleton_append]
    · -- a single label has met the check against an empty output
      rcases labels with _ | ⟨label, _ | ⟨other, labels⟩⟩
      · decide
      · have hlabel := hwire label List.mem_cons_self
        rw [hpacket, List.map_cons, List.flatten_cons, wireLabel, List.cons_append,
          List.cons_append] at hlabels
        rcases parseLabels_cons.mp hlabels with ⟨hzero, -⟩ | ⟨-, -, hroom, -, -⟩
        · exact absurd hzero hlabel.length_ne_zero
        · rw [dottedName, List.map_singleton, List.intercalate_singleton, List.length_map]
          rw [hlabel.toNat_length, maxDomainLen, List.length_nil] at hroom
          omega
      · exact absurd hcount (by simp)
  · rintro ⟨labels, hspells, rfl⟩
    obtain ⟨hi, lo, rest, hpacket, hqtype⟩ := hspells.text
    have hname : ∀ label ∈ labels, NameLabel (label.map lowerByte) := fun label hl =>
      (nameLabel_map_lowerByte (hspells.wire label hl)).mpr (hspells.bytes label hl)
    have hsize := congrArg List.length hpacket
    rw [List.length_drop, List.length_append, List.length_cons, List.length_cons] at hsize
    rw [wireName, List.append_assoc, List.singleton_append] at hpacket
    refine parseQuery_eq_some.mpr ⟨by omega, 0, hi, lo, rest, ?_, hqtype⟩
    rw [hpacket, ← foldl_pushLabel_labels hname]
    refine parseLabels_spelled ?_ hspells.wire hname (fun _ label hl => ?_) ?_
    · rw [← hpacket, List.length_drop]
      omega
    · -- the first of several labels leaves room for a dot and a byte
      rcases labels with _ | ⟨first, _ | ⟨other, labels⟩⟩
      · cases hl
      · cases hl
        have hsingle := hspells.single (Nat.le_refl 1)
        rw [dottedName, List.map_singleton, List.intercalate_singleton, List.length_map] at hsingle
        exact Nat.lt_succ_of_le hsingle
      · cases hl
        have hseveral := hspells.several
        rw [dottedName, List.map_cons, List.map_cons, List.intercalate_cons_cons,
          List.length_append, List.length_append, List.length_map, List.length_singleton]
          at hseveral
        rw [maxDomainLen]
        omega
    · rw [foldl_pushLabel_labels hname]
      exact hspells.several

/-- **`parse_query` accepts exactly its grammar**, within the packet and the 256
bytes of the output buffer, whatever the packet is and whatever the buffer held. -/
theorem parse_query_grammar (packet : CStr) {buf : CStr} (hbuf : buf.length = maxDomainLen) :
    ∃ ret buf', parseQueryIn packet maxDomainLen buf = some (ret, buf') ∧
      (∀ qtype, ret = some qtype ↔ ∃ labels, QuerySpells packet labels qtype) ∧
      ∀ labels qtype, QuerySpells packet labels qtype → asCStr buf' = dottedName labels := by
  obtain ⟨ret, buf', hrun, -, hparse⟩ := @parseQueryIn_spec packet _ _ (by decide) hbuf
  refine ⟨ret, buf', hrun, fun qtype => ⟨fun hret => ?_, ?_⟩, fun labels qtype hspells => ?_⟩
  · rw [hret, Option.map_some] at hparse
    obtain ⟨labels, hspells, -⟩ := parseQuery_eq_some_iff.mp hparse
    exact ⟨labels, hspells⟩
  · rintro ⟨labels, hspells⟩
    rw [parseQuery_eq_some_iff.mpr ⟨labels, hspells, rfl⟩] at hparse
    obtain ⟨got, hgot, heq⟩ := Option.map_eq_some_iff.mp hparse.symm
    rw [hgot, (Prod.mk.inj heq).2]
  · rw [parseQuery_eq_some_iff.mpr ⟨labels, hspells, rfl⟩] at hparse
    obtain ⟨got, -, heq⟩ := Option.map_eq_some_iff.mp hparse.symm
    exact (Prod.mk.inj heq).1

/-- A packet with three labels and a buffer of zeros. -/
theorem parse_query_grammar_three :
    let packet := queryPacket 1 [cstr "WWW", cstr "Example", cstr "com"] 1
    ∃ ret buf', parseQueryIn packet maxDomainLen (List.replicate 256 0) = some (ret, buf') ∧
      (∀ qtype, ret = some qtype ↔ ∃ labels, QuerySpells packet labels qtype) ∧
      ∀ labels qtype, QuerySpells packet labels qtype → asCStr buf' = dottedName labels :=
  parse_query_grammar _ List.length_replicate

end Nyet
