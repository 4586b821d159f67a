import Nyet.RadixTree.Lookup

/-!
# The question of a DNS packet (`parse_query`)

A packet is the list of its bytes, and a pointer into it is what is left of the
list from there on: `limit - p` is the length of that rest.

`parse_query` is also how this development reads the question a datagram carries
(`question`). What it accepts is short, lower-cased and free of empty labels, so
`radix_tree.c` takes every name but the root (`WireName.insertable`).
-/

namespace Nyet

/-- `MAX_DOMAIN_LEN` of `nyet.c`: the size of `ctx->domain`. -/
def maxDomainLen : Nat := 256

/-- `ntohs` of two bytes on the wire. -/
def be16 (hi lo : UInt8) : UInt16 := hi.toUInt16 <<< 8 ||| lo.toUInt16

/-- `htons` -/
def wire16 (x : UInt16) : CStr := [(x >>> 8).toUInt8, x.toUInt8]

/-- Bits below the shifted ones are added to them. -/
theorem shiftLeft_or_of_lt {a b k : Nat} (hb : b < 2 ^ k) : a <<< k ||| b = a * 2 ^ k + b := by
  rw [← Nat.shiftLeft_add_eq_or_of_lt hb, Nat.shiftLeft_eq]

/-- `ntohs` undoes `htons`. -/
theorem be16_wire16 (x : UInt16) : be16 (x >>> 8).toUInt8 x.toUInt8 = x := by
  have hx := x.toNat_lt
  have hhigh : (x.toNat >>> 8 % 2 ^ 8) <<< 8 % 2 ^ 16 = (x.toNat >>> 8) <<< 8 := by
    simp only [Nat.shiftLeft_eq, Nat.shiftRight_eq_div_pow]
    omega
  apply UInt16.toNat_inj.mp
  rw [be16]
  simp only [UInt16.toNat_or, UInt16.toNat_shiftLeft, UInt8.toNat_toUInt16, UInt16.toNat_toUInt8,
    UInt16.toNat_shiftRight, UInt16.reduceToNat, Nat.reduceMod]
  rw [hhigh, shiftLeft_or_of_lt (Nat.mod_lt _ (by decide)), Nat.shiftRight_eq_div_pow]
  omega

/-- `is_valid`: what a label byte may be once lower-cased. -/
def isNameByte (c : UInt8) : Bool :=
  (97 ≤ c && c ≤ 122) || (48 ≤ c && c ≤ 57) || c = 45

/-- The loop over the labels of the name, with what is written to `out_domain` so
far. The result is the domain and the rest from the terminating zero on; `none`
is `return 0`. Every round consumes a byte, so the length of the packet is fuel
enough (`parseLabels_fuel`). -/
def parseLabels (maxLen : Nat) : Nat → CStr → CStr → Option (CStr × CStr)
  | 0, _, _ => none
  | _ + 1, [], out => some (out, [])
  | fuel + 1, len :: p, out =>
    if len = 0 then some (out, len :: p)
    -- `len >= (limit - p) || len >= (end - dst)`
    else if p.length ≤ len.toNat ∨ maxLen - 1 - out.length ≤ len.toNat then none
    else
      let label := (p.take len.toNat).map lowerByte
      if label.all isNameByte then
        parseLabels maxLen fuel (p.drop len.toNat)
          ((if out = [] then [] else out ++ [dot]) ++ label)
      else none

/-- `parse_query`: domain and qtype; `none` is `return 0`. -/
def parseQuery (packet : CStr) (maxLen : Nat) : Option (CStr × UInt16) :=
  if packet.length < 12 then none
  else
    match parseLabels maxLen (packet.length + 1) (packet.drop 12) [] with
    | none => none
    | some (domain, p) =>
      match p.drop 1 with
      | hi :: lo :: _ => some (domain, be16 hi lo)
      | _ => none

/-- Domain and qtype of the question a packet carries. -/
def question (packet : CStr) : Option (CStr × UInt16) := parseQuery packet maxDomainLen

/-- The first two bytes, as `memcpy` into a `uint16_t` compares them. -/
def messageId (packet : CStr) : CStr := packet.take 2

/-- A standard query with one question. -/
def queryPacket (id : UInt16) (labels : List CStr) (qtype : UInt16) : CStr :=
  wire16 id ++ [1, 0, 0, 1, 0, 0, 0, 0, 0, 0] ++
    (labels.map fun label => label.length.toUInt8 :: label).flatten ++ [0] ++
    wire16 qtype ++ wire16 1

/-! ## What is accepted -/

/-- More fuel than bytes changes nothing. -/
theorem parseLabels_fuel (maxLen : Nat) :
    ∀ (fuel : Nat) (p out : CStr), p.length < fuel →
      parseLabels maxLen (fuel + 1) p out = parseLabels maxLen fuel p out
  | 0, _, _, h => absurd h (Nat.not_lt_zero _)
  | _ + 1, [], _, _ => rfl
  | fuel + 1, len :: p, out, h => by
    rw [List.length_cons] at h
    have hrest : (p.drop len.toNat).length < fuel := by
      rw [List.length_drop]
      omega
    rw [parseLabels, parseLabels]
    simp only [parseLabels_fuel maxLen fuel _ _ hrest]

/-- **A round of the loop**: the name ends, or a label that fits and has the right bytes is
written. -/
theorem parseLabels_cons {maxLen fuel : Nat} {len : UInt8} {p out : CStr} {r : CStr × CStr} :
    parseLabels maxLen (fuel + 1) (len :: p) out = some r ↔
      (len = 0 ∧ r = (out, len :: p)) ∨
      (len ≠ 0 ∧ len.toNat < p.length ∧ len.toNat < maxLen - 1 - out.length ∧
        (∀ c ∈ (p.take len.toNat).map lowerByte, isNameByte c = true) ∧
        parseLabels maxLen fuel (p.drop len.toNat)
          ((if out = [] then [] else out ++ [dot]) ++ (p.take len.toNat).map lowerByte) =
            some r) := by
  rw [parseLabels]
  by_cases hlen : len = 0
  · rw [if_pos hlen, Option.some.injEq]
    constructor
    · exact fun heq => Or.inl ⟨hlen, heq.symm⟩
    · rintro (⟨-, heq⟩ | ⟨hne, -⟩)
      · exact heq.symm
      · exact absurd hlen hne
  · rw [if_neg hlen]
    -- `len >= (limit - p) || len >= (end - dst)`
    by_cases hroom : p.length ≤ len.toNat ∨ maxLen - 1 - out.length ≤ len.toNat
    · rw [if_pos hroom]
      refine iff_of_false nofun ?_
      rintro (⟨hzero, -⟩ | ⟨-, hp, hout, -⟩)
      · exact hlen hzero
      · omega
    · rw [if_neg hroom]
      dsimp only
      by_cases hall : ((p.take len.toNat).map lowerByte).all isNameByte = true
      · rw [if_pos hall]
        constructor
        · exact fun h => Or.inr ⟨hlen, by omega, by omega, List.all_eq_true.mp hall, h⟩
        · rintro (⟨hzero, -⟩ | ⟨-, -, -, -, h⟩)
          · exact absurd hzero hlen
          · exact h
      · rw [if_neg hall]
        refine iff_of_false nofun ?_
        rintro (⟨hzero, -⟩ | ⟨-, -, -, hbytes, -⟩)
        · exact hlen hzero
        · exact hall (List.all_eq_true.mpr hbytes)

/-- A domain as `parse_query` writes one: within the buffer, only name bytes and
dots, and a label at the front unless it is empty. -/
structure WireName (maxLen : Nat) (domain : CStr) : Prop where
  short : domain.length ≤ maxLen - 1
  bytes : ∀ c ∈ domain, isNameByte c = true ∨ c = dot
  label : domain ≠ [] → ∃ c rest, domain = c :: rest ∧ isNameByte c = true

theorem WireName.nil (maxLen : Nat) : WireName maxLen [] :=
  ⟨Nat.zero_le _, by simp, fun h => absurd rfl h⟩

/-- One more label keeps the shape. -/
theorem WireName.push {maxLen : Nat} {out label : CStr} (h : WireName maxLen out)
    (hlabel : label ≠ []) (hroom : label.length < maxLen - 1 - out.length)
    (hbytes : ∀ c ∈ label, isNameByte c = true) :
    WireName maxLen ((if out = [] then [] else out ++ [dot]) ++ label) := by
  obtain ⟨c, rest, rfl⟩ := List.exists_cons_of_ne_nil hlabel
  have hc : isNameByte c = true := hbytes c List.mem_cons_self
  by_cases hout : out = []
  · subst hout
    rw [if_pos rfl, List.nil_append]
    refine ⟨?_, fun x hx => Or.inl (hbytes x hx), fun _ => ⟨c, rest, rfl, hc⟩⟩
    rw [List.length_nil] at hroom
    omega
  · rw [if_neg hout]
    obtain ⟨first, tail, rfl, hfirst⟩ := h.label hout
    refine ⟨?_, fun x hx => ?_, fun _ => ⟨first, tail ++ [dot] ++ (c :: rest), by simp, hfirst⟩⟩
    · rw [List.length_append, List.length_append, List.length_singleton]
      omega
    · rcases List.mem_append.mp hx with hx | hx
      · rcases List.mem_append.mp hx with hx | hx
        · exact h.bytes x hx
        · exact Or.inr (List.mem_singleton.mp hx)
      · exact Or.inl (hbytes x hx)

theorem parseLabels_wireName {maxLen : Nat} :
    ∀ {fuel : Nat} {p out domain rest : CStr}, WireName maxLen out →
      parseLabels maxLen fuel p out = some (domain, rest) → WireName maxLen domain
  | 0, _, _, _, _, _, h => by
    rw [parseLabels] at h
    cases h
  | _ + 1, [], _, _, _, hout, h => by
    rw [parseLabels] at h
    cases h
    exact hout
  | fuel + 1, len :: p, out, domain, rest, hout, h => by
    rcases parseLabels_cons.mp h with ⟨-, heq⟩ | ⟨hlen, hp, hroom, hbytes, hrest⟩
    · cases heq
      exact hout
    · have hpos : 0 < len.toNat :=
        Nat.pos_of_ne_zero fun h0 => hlen (UInt8.toNat_inj.mp h0)
      have hlength : ((p.take len.toNat).map lowerByte).length = len.toNat := by
        rw [List.length_map, List.length_take]
        omega
      refine parseLabels_wireName (hout.push ?_ ?_ hbytes) hrest
      · exact List.ne_nil_of_length_pos (Nat.lt_of_lt_of_eq hpos hlength.symm)
      · omega

/-- **What is accepted**: a header, a name, and two bytes behind its end. -/
theorem parseQuery_eq_some {packet : CStr} {maxLen : Nat} {domain : CStr} {qtype : UInt16} :
    parseQuery packet maxLen = some (domain, qtype) ↔
      12 ≤ packet.length ∧ ∃ zero hi lo after,
        parseLabels maxLen (packet.length + 1) (packet.drop 12) [] =
          some (domain, zero :: hi :: lo :: after) ∧ qtype = be16 hi lo := by
  rw [parseQuery]
  constructor
  · intro h
    -- the header, the labels, and then the type behind the terminating zero
    split at h
    · cases h
    next hsize =>
      refine ⟨Nat.not_lt.mp hsize, ?_⟩
      split at h
      · cases h
      next name p hlabels =>
        split at h
        next hi lo after hrest =>
          cases h
          obtain ⟨zero, rfl⟩ : ∃ zero, p = zero :: hi :: lo :: after := by
            cases p with
            | nil => cases hrest
            | cons zero p => exact ⟨zero, congrArg (zero :: ·) hrest⟩
          exact ⟨zero, hi, lo, after, hlabels, rfl⟩
        · cases h
  · rintro ⟨hsize, zero, hi, lo, after, hlabels, rfl⟩
    rw [if_neg (Nat.not_lt.mpr hsize), hlabels]
    rfl

/-- **What `parse_query` writes to `ctx->domain`.** -/
theorem parseQuery_wireName {packet : CStr} {maxLen : Nat} {domain : CStr} {qtype : UInt16}
    (h : parseQuery packet maxLen = some (domain, qtype)) : WireName maxLen domain := by
  obtain ⟨-, zero, hi, lo, after, hlabels, -⟩ := parseQuery_eq_some.mp h
  exact parseLabels_wireName (WireName.nil maxLen) hlabels

/-- A name byte is no dot, and lower-casing keeps it. -/
theorem lowerByte_of_isNameByte {c : UInt8} (h : isNameByte c = true) :
    lowerByte c = c ∧ c ≠ dot := by
  rw [isNameByte] at h
  rw [lowerByte, dot]
  simp only [Bool.or_eq_true, Bool.and_eq_true, decide_eq_true_eq, UInt8.le_iff_toNat_le,
    ← UInt8.toNat_inj] at h
  have hle : ¬ (65 ≤ c ∧ c ≤ 90) := by
    rw [UInt8.le_iff_toNat_le, UInt8.le_iff_toNat_le]
    simp only [UInt8.reduceToNat] at h ⊢
    omega
  refine ⟨if_neg hle, fun heq => ?_⟩
  subst heq
  simp at h

/-- A string that does not start with a dot has a piece. -/
theorem pieces_cons_ne_nil {c : UInt8} {rest : CStr} (hc : c ≠ dot) : pieces (c :: rest) ≠ [] := by
  have hfront : ∀ {s : CStr}, dot ∉ s → pieces (c :: s) ≠ [] := by
    intro s hs
    have hno : dot ∉ c :: s := by
      rw [List.mem_cons]
      rintro (heq | hmem)
      · exact hc heq.symm
      · exact hs hmem
    rw [pieces_of_not_mem hno, if_neg (List.cons_ne_nil _ _)]
    exact List.cons_ne_nil _ _
  by_cases hdot : dot ∈ rest
  · -- only the piece before the first dot matters
    obtain ⟨front, back, rfl, hno⟩ := List.eq_append_cons_of_mem hdot
    rw [← List.cons_append, pieces_append_dot]
    exact fun h => hfront hno (List.append_eq_nil_iff.mp h).1
  · exact hfront hdot

/-- **Every name but the root can be inserted.** -/
theorem WireName.insertable {domain : CStr} (h : WireName maxDomainLen domain)
    (hne : domain ≠ []) : Insertable domain := by
  obtain ⟨c, rest, rfl, hc⟩ := h.label hne
  obtain ⟨hlower, hdot⟩ := lowerByte_of_isNameByte hc
  constructor
  · have hshort := h.short
    rw [maxDomainLen] at hshort
    rw [labelBufSize]
    omega
  · intro hnil
    rw [normalise, labelsRtl] at hnil
    rcases List.take_eq_nil_iff.mp hnil with hmax | hpieces
    · exact absurd hmax (by decide)
    · rw [List.reverse_eq_nil_iff, List.map_cons, hlower] at hpieces
      exact pieces_cons_ne_nil hdot hpieces

end Nyet
