import Nyet.Packet.Answers
import Nyet.Packet.QueryBuffer

/-!
# Two ways to read a name (`skip_dns_name` and `parse_query`)

`parse_query` takes every length byte for the length of a label. `skip_dns_name` does
so for length bytes below 192, and takes the others for the first byte of a pointer,
which ends the name. A name whose labels are all shorter than that is walked to its
end (`skipDnsName_labels`), and on the others the two part ways.
-/

namespace Nyet

/-- Both top bits are set. -/
theorem pointer_bits_iff : ∀ len : UInt8, len &&& 0xC0 = 0xC0 ↔ 192 ≤ len.toNat :=
  forall_byte (by decide +kernel)

theorem getElem?_of_drop {packet rest : CStr} {p : Nat} {c : UInt8}
    (h : packet.drop p = c :: rest) : packet[p]? = some c := by
  rw [← List.head?_drop, h, List.head?_cons]

theorem drop_of_drop {packet front rest : CStr} {p : Nat} (h : packet.drop p = front ++ rest) :
    packet.drop (p + front.length) = rest := by
  rw [← List.drop_drop, h, List.drop_left]

/-- The root ends a name. -/
theorem skipDnsName_root {packet rest : CStr} {p fuel : Nat} (h : packet.drop p = 0 :: rest) :
    skipDnsName packet (fuel + 1) p = some (p + 1) := by
  rw [skipDnsName, getElem?_of_drop h]
  rfl

/-- So does a pointer. -/
theorem skipDnsName_pointer {packet rest : CStr} {p fuel : Nat} {hi lo : UInt8}
    (h : packet.drop p = hi :: lo :: rest) (hbits : 192 ≤ hi.toNat) :
    skipDnsName packet (fuel + 1) p = some (p + 2) := by
  have hsize := congrArg List.length h
  rw [List.length_drop, List.length_cons, List.length_cons] at hsize
  rw [skipDnsName, getElem?_of_drop h]
  dsimp only
  rw [if_pos ((pointer_bits_iff hi).mpr hbits), if_pos (by omega)]

/-- **Labels of less than 192 bytes are walked one by one.** -/
theorem skipDnsName_labels {packet rest : CStr} :
    ∀ {labels : List Label} {p : Nat} (fuel : Nat),
      packet.drop p = (labels.map wireLabel).flatten ++ rest →
      (∀ label ∈ labels, WireLabel label ∧ label.length < 192) →
      skipDnsName packet (labels.length + fuel) p =
        skipDnsName packet fuel (p + ((labels.map wireLabel).flatten).length)
  | [], p, fuel, _, _ => by
    rw [List.length_nil, Nat.zero_add]
    rfl
  | label :: labels, p, fuel, h, hlabels => by
    obtain ⟨hwire, hshort⟩ := hlabels label List.mem_cons_self
    have hlen := hwire.toNat_length
    rw [List.map_cons, List.flatten_cons, List.append_assoc] at h
    have hrest := drop_of_drop h
    have hsize : (wireLabel label).length = 1 + label.length := by
      rw [wireLabel, List.length_cons, Nat.add_comm]
    -- a length below 192 does not have both of its upper bits set
    have hbits : ¬ label.length.toUInt8 &&& 0xC0 = 0xC0 := by
      rw [pointer_bits_iff, hlen]
      omega
    rw [List.length_cons, Nat.succ_add, skipDnsName, getElem?_of_drop h]
    dsimp only
    rw [if_neg hbits, if_neg hwire.length_ne_zero, hlen, List.map_cons, List.flatten_cons,
      List.length_append, hsize, ← Nat.add_assoc, ← Nat.add_assoc]
    rw [hsize, ← Nat.add_assoc] at hrest
    exact skipDnsName_labels fuel hrest fun l hl => hlabels l (List.mem_cons_of_mem _ hl)

/-- A label takes at least a byte, so there is fuel for all of them. -/
theorem length_le_wireLabels (labels : List Label) :
    labels.length ≤ ((labels.map wireLabel).flatten).length := by
  induction labels with
  | nil => exact Nat.le_refl 0
  | cons label labels ih =>
    rw [List.map_cons, List.flatten_cons, List.length_append, wireLabel, List.length_cons,
      List.length_cons]
    omega

/-- Behind labels of less than 192 bytes, there is fuel left for one more round. -/
theorem skipDnsName_behind {packet rest : CStr} {labels : List Label} {p : Nat}
    (h : packet.drop p = (labels.map wireLabel).flatten ++ rest)
    (hlabels : ∀ label ∈ labels, WireLabel label ∧ label.length < 192) :
    ∃ fuel, skipDnsName packet (packet.length + 1) p =
      skipDnsName packet (fuel + 1) (p + ((labels.map wireLabel).flatten).length) := by
  have hsize := congrArg List.length h
  rw [List.length_drop, List.length_append] at hsize
  have hcount := length_le_wireLabels labels
  refine ⟨packet.length - labels.length, ?_⟩
  rw [← skipDnsName_labels _ h hlabels]
  congr 1
  omega

/-! ## The parsers of one name -/

/-- Where `parse_query` stands behind the zero byte of the name. -/
def nameEnd (packet : CStr) : Option Nat :=
  (parseLabels maxDomainLen (packet.length + 1) (packet.drop 12) []).map fun r =>
    packet.length - r.2.length + 1

/-- **When the two parsers agree**: on a packet `parse_query` accepts, `skip_dns_name`
finds the same end of the name exactly if no label has 192 bytes or more. -/
theorem name_parsers_agree_iff {packet domain : CStr} {qtype : UInt16}
    (h : parseQuery packet maxDomainLen = some (domain, qtype)) :
    skipDnsName packet (packet.length + 1) 12 = nameEnd packet ↔
      ∀ labels, HasName packet labels → ∀ label ∈ labels, label.length < 192 := by
  obtain ⟨-, zero, hi, lo, rest, hlabels, -⟩ := parseQuery_eq_some.mp h
  obtain ⟨labels, hpacket, hrest, hwire, -, -⟩ := parseLabels_joins hlabels
  obtain ⟨after, hafter⟩ := hrest.resolve_left (List.cons_ne_nil _ _)
  obtain ⟨rfl, rfl⟩ := List.cons.inj hafter
  have hname : HasName packet labels :=
    ⟨hwire, hi :: lo :: rest, by rw [hpacket, wireName, List.append_assoc, List.singleton_append]⟩
  have hsize := congrArg List.length hpacket
  rw [List.length_drop, List.length_append] at hsize
  have hend : nameEnd packet = some (12 + ((labels.map wireLabel).flatten).length + 1) := by
    rw [nameEnd, hlabels, Option.map_some, Option.some_inj]
    rw [List.length_cons] at hsize ⊢
    omega
  rw [hend]
  constructor
  · intro hagree ls hls
    rw [hls.unique hname]
    by_contra hlong
    -- the walk stops at the first label that looks like a pointer
    have hsome : (labels.find? fun l => 192 ≤ l.length).isSome = true := by
      rw [List.find?_isSome]
      push Not at hlong
      obtain ⟨label, hmem, hlen⟩ := hlong
      exact ⟨label, hmem, decide_eq_true hlen⟩
    obtain ⟨bad, hfind⟩ := Option.isSome_iff_exists.mp hsome
    obtain ⟨hbad, front, back, rfl, hfront⟩ := List.find?_eq_some_iff_append.mp hfind
    have hbits : 192 ≤ bad.length := of_decide_eq_true hbad
    have hwireBad := hwire bad (by simp)
    rw [List.map_append, List.map_cons, List.flatten_append, List.flatten_cons,
      List.append_assoc, List.append_assoc] at hpacket
    obtain ⟨fuel, hwalk⟩ := skipDnsName_behind hpacket fun label hl =>
      ⟨hwire label (List.mem_append_left _ hl), by simpa using hfront label hl⟩
    have hhere := drop_of_drop hpacket
    obtain ⟨c, cs, hcons⟩ := List.exists_cons_of_ne_nil (List.ne_nil_of_length_pos hwireBad.1)
    rw [wireLabel, hcons, List.cons_append, List.cons_append, ← hcons] at hhere
    rw [hwalk, skipDnsName_pointer hhere (by rw [hwireBad.toNat_length]; exact hbits)] at hagree
    have hpos := Option.some.inj hagree
    rw [List.map_append, List.map_cons, List.flatten_append, List.flatten_cons, List.length_append,
      List.length_append, wireLabel, List.length_cons] at hpos
    omega
  · intro hshort
    obtain ⟨fuel, hwalk⟩ := skipDnsName_behind hpacket fun label hl =>
      ⟨hwire label hl, hshort labels hname label hl⟩
    rw [hwalk, skipDnsName_root (drop_of_drop hpacket)]

/-- A query with three labels. -/
theorem name_parsers_agree_three :
    let packet := queryPacket 1 [cstr "WWW", cstr "Example", cstr "com"] 1
    skipDnsName packet (packet.length + 1) 12 = nameEnd packet ↔
      ∀ labels, HasName packet labels → ∀ label ∈ labels, label.length < 192 :=
  @name_parsers_agree_iff _ (cstr "www.example.com") 1 (by decide +kernel)

/-- One label of 192 bytes: accepted, and taken for a pointer by the other parser. -/
theorem long_label_read_as_pointer :
    let packet := queryPacket 1 [List.replicate 192 97] 1
    parseQuery packet maxDomainLen = some (List.replicate 192 97, 1) ∧
      skipDnsName packet (packet.length + 1) 12 ≠ nameEnd packet := by
  decide +kernel

end Nyet
