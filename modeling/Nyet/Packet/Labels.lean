import Nyet.Packet.Query

/-!
# From the labels on the wire to the labels of the tree

A name on the wire is its labels, each after its length, and a zero byte.
`parse_query` joins them with dots into a string and `split_domain_rtl` cuts the string
up again, from the right. `no_label_dropped` is that nothing is lost on the way: the
tree is asked about the labels of the packet, lower-cased, and about all of them.
-/

namespace Nyet

/-- A label on the wire. -/
def wireLabel (label : Label) : CStr := label.length.toUInt8 :: label

/-- A name on the wire. -/
def wireName (labels : List Label) : CStr := (labels.map wireLabel).flatten ++ [0]

/-- A length byte says how long the label is, and 0 ends the name. -/
def WireLabel (label : Label) : Prop := 0 < label.length ∧ label.length < 256

/-- The packet's question name has these labels. -/
def HasName (packet : CStr) (labels : List Label) : Prop :=
  (∀ label ∈ labels, WireLabel label) ∧ ∃ rest, packet.drop 12 = wireName labels ++ rest

/-! ## A packet has one name -/

theorem WireLabel.toNat_length {label : Label} (h : WireLabel label) :
    label.length.toUInt8.toNat = label.length :=
  Nat.mod_eq_of_lt h.2

/-- The length byte of a label is not the one that ends the name. -/
theorem WireLabel.length_ne_zero {label : Label} (h : WireLabel label) :
    label.length.toUInt8 ≠ 0 := by
  intro heq
  have hlen := h.toNat_length
  rw [heq] at hlen
  exact absurd h.1 (Nat.not_lt.mpr (Nat.le_of_eq hlen.symm))

/-- What follows the length bytes is read in one way only. -/
theorem wireLabels_inj {ls ks : List Label} {p q : CStr} (hls : ∀ label ∈ ls, WireLabel label)
    (hks : ∀ label ∈ ks, WireLabel label)
    (h : (ls.map wireLabel).flatten ++ 0 :: p = (ks.map wireLabel).flatten ++ 0 :: q) :
    ls = ks := by
  induction ls generalizing ks with
  | nil =>
    cases ks with
    | nil => rfl
    | cons k ks => exact absurd (List.cons.inj h).1.symm (hks k List.mem_cons_self).length_ne_zero
  | cons l ls ih =>
    cases ks with
    | nil => exact absurd (List.cons.inj h).1 (hls l List.mem_cons_self).length_ne_zero
    | cons k ks =>
      rw [List.map_cons, List.map_cons, List.flatten_cons, List.flatten_cons, List.append_assoc,
        List.append_assoc] at h
      obtain ⟨hlen, hrest⟩ := List.cons.inj h
      have hl := (hls l List.mem_cons_self).toNat_length
      have hk := (hks k List.mem_cons_self).toNat_length
      rw [hlen, hk] at hl
      obtain ⟨rfl, htail⟩ := List.append_inj hrest hl.symm
      rw [ih (fun x hx => hls x (List.mem_cons_of_mem _ hx))
        (fun x hx => hks x (List.mem_cons_of_mem _ hx)) htail]

theorem HasName.unique {packet : CStr} {ls ks : List Label} (hls : HasName packet ls)
    (hks : HasName packet ks) : ls = ks := by
  obtain ⟨hls, p, hp⟩ := hls
  obtain ⟨hks, q, hq⟩ := hks
  rw [hp, wireName, wireName, List.append_assoc, List.append_assoc] at hq
  exact wireLabels_inj hls hks hq

/-! ## The string in between -/

/-- One more label, as `parse_query` writes it behind the others. -/
def pushLabel (out label : CStr) : CStr := (if out = [] then [] else out ++ [dot]) ++ label

/-- What `parse_query` leaves of a label: at least a byte, and only name bytes. -/
def NameLabel (label : CStr) : Prop := label ≠ [] ∧ ∀ c ∈ label, isNameByte c = true

theorem NameLabel.no_dot {label : CStr} (h : NameLabel label) : dot ∉ label :=
  fun hmem => (lowerByte_of_isNameByte (h.2 dot hmem)).2 rfl

/-- Joining labels and cutting the string up again gives them back. -/
theorem pieces_pushLabel {labels : List CStr} (h : ∀ label ∈ labels, NameLabel label) (out : CStr) :
    pieces (labels.foldl pushLabel out) = pieces out ++ labels := by
  induction labels generalizing out with
  | nil => exact (List.append_nil _).symm
  | cons label labels ih =>
    have hlabel := h label List.mem_cons_self
    have hone : pieces label = [label] := by rw [pieces_of_not_mem hlabel.no_dot, if_neg hlabel.1]
    have hpush : pieces (pushLabel out label) = pieces out ++ [label] := by
      rw [pushLabel]
      by_cases hout : out = []
      · subst hout
        rw [if_pos rfl, List.nil_append, hone, pieces_nil, List.nil_append]
      · rw [if_neg hout, List.append_assoc, List.singleton_append, pieces_append_dot, hone]
    rw [List.foldl_cons, ih (fun l hl => h l (List.mem_cons_of_mem _ hl)), hpush,
      List.append_assoc, List.singleton_append]

/-- **The loop of `parse_query`**: it reads labels up to the end of the packet or a
zero byte, and joins them, lower-cased, to what it has written. -/
theorem parseLabels_joins {maxLen : Nat} :
    ∀ {fuel : Nat} {p out domain rest : CStr}, parseLabels maxLen fuel p out = some (domain, rest) →
      ∃ labels : List Label, p = (labels.map wireLabel).flatten ++ rest ∧
        (rest = [] ∨ ∃ after, rest = 0 :: after) ∧ (∀ label ∈ labels, WireLabel label) ∧
        (∀ label ∈ labels, NameLabel (label.map lowerByte)) ∧
        domain = (labels.map (·.map lowerByte)).foldl pushLabel out
  | 0, _, _, _, _, h => by
    rw [parseLabels] at h
    cases h
  | _ + 1, [], out, _, _, h => by
    rw [parseLabels] at h
    cases h
    exact ⟨[], rfl, Or.inl rfl, List.forall_mem_nil _, List.forall_mem_nil _, rfl⟩
  | fuel + 1, len :: p, out, domain, rest, h => by
    rcases parseLabels_cons.mp h with ⟨hlen, heq⟩ | ⟨hlen, hroom, -, hbytes, hrounds⟩
    · cases heq
      exact ⟨[], rfl, Or.inr ⟨p, by rw [hlen]⟩, List.forall_mem_nil _, List.forall_mem_nil _,
        rfl⟩
    · have hpos : 0 < len.toNat := Nat.pos_of_ne_zero fun h0 => hlen (UInt8.toNat_inj.mp h0)
      have hlength : (p.take len.toNat).length = len.toNat := by
        rw [List.length_take]
        omega
      -- by induction on the rounds; this one puts a label in front
      obtain ⟨labels, hp, hrest, hwire, hname, hdomain⟩ := parseLabels_joins hrounds
      refine ⟨p.take len.toNat :: labels, ?_, hrest, fun label hlabel => ?_,
        fun label hlabel => ?_, hdomain⟩
      · have hbyte : (p.take len.toNat).length.toUInt8 = len := by
          rw [hlength]
          exact UInt8.ofNat_toNat
        rw [List.map_cons, List.flatten_cons, wireLabel, hbyte, List.cons_append,
          List.cons_append, List.append_assoc, ← hp, List.take_append_drop]
      · rcases List.mem_cons.mp hlabel with rfl | hmem
        · rw [WireLabel]
          rw [hlength]
          exact ⟨hpos, len.toNat_lt⟩
        · exact hwire label hmem
      · rcases List.mem_cons.mp hlabel with rfl | hmem
        · refine ⟨List.ne_nil_of_length_pos ?_, hbytes⟩
          rw [List.length_map, hlength]
          exact hpos
        · exact hname label hmem

/-- A label needs a byte, and a dot between it and the next. -/
theorem pieces_length (s : CStr) : 2 * (pieces s).length ≤ s.length + 1 := by
  have hfront : ∀ {t : CStr}, dot ∉ t → 2 * (pieces t).length ≤ t.length + 1 := by
    intro t ht
    rw [pieces_of_not_mem ht]
    split
    · exact Nat.zero_le _
    · next hne =>
      have hpos := List.length_pos_iff.mpr hne
      rw [List.length_singleton]
      omega
  induction hn : s.length using Nat.strong_induction_on generalizing s with
  | _ n ih =>
    by_cases hdot : dot ∈ s
    · obtain ⟨front, back, rfl, hno⟩ := List.eq_append_cons_of_mem hdot
      rw [List.length_append, List.length_cons] at hn
      have hback := ih back.length (by omega) back rfl
      have hhead := hfront hno
      rw [pieces_append_dot, List.length_append]
      omega
    · rw [← hn]
      exact hfront hdot

/-- Lower-casing does nothing to what `parse_query` has written. -/
theorem WireName.map_lowerByte {maxLen : Nat} {domain : CStr} (h : WireName maxLen domain) :
    domain.map lowerByte = domain := by
  have hlower : ∀ c ∈ domain, lowerByte c = id c := by
    intro c hc
    rcases h.bytes c hc with hname | rfl
    · exact (lowerByte_of_isNameByte hname).1
    · rfl
  rw [List.map_congr_left hlower, List.map_id]

/-- **The question `parse_query` reads** is the packet's name, label by label. -/
theorem parseQuery_labels {packet domain : CStr} {maxLen : Nat} {qtype : UInt16}
    (h : parseQuery packet maxLen = some (domain, qtype)) :
    ∃ labels, HasName packet labels ∧ pieces domain = labels.map (·.map lowerByte) ∧
      domain = (pieces domain).foldl pushLabel [] := by
  obtain ⟨-, zero, hi, lo, rest, hlabels, -⟩ := parseQuery_eq_some.mp h
  obtain ⟨labels, hpacket, hrest, hwire, hname, hjoined⟩ := parseLabels_joins hlabels
  have hpieces : pieces domain = labels.map (·.map lowerByte) := by
    rw [hjoined, pieces_pushLabel _ [], pieces_nil, List.nil_append]
    intro label hlabel
    obtain ⟨l, hl, rfl⟩ := List.mem_map.mp hlabel
    exact hname l hl
  -- a name without its zero byte would leave no room for the qtype
  obtain ⟨after, hafter⟩ := hrest.resolve_left (List.cons_ne_nil _ _)
  rw [hafter] at hpacket
  refine ⟨labels, ⟨hwire, after, ?_⟩, hpieces, ?_⟩
  · rw [hpacket, wireName, List.append_assoc, List.singleton_append]
  · rw [hpieces]
    exact hjoined

/-- The tree is asked about all the pieces of the domain. -/
theorem parseQuery_normalise {packet domain : CStr} {qtype : UInt16}
    (h : parseQuery packet maxDomainLen = some (domain, qtype)) :
    normalise domain = (pieces domain).reverse ∧ (pieces domain).length ≤ maxLabels := by
  have hwire := parseQuery_wireName h
  have hcount : (pieces domain).length ≤ maxLabels := by
    have hshort := hwire.short
    have hpairs := pieces_length domain
    rw [maxDomainLen] at hshort
    rw [maxLabels]
    omega
  refine ⟨?_, hcount⟩
  rw [normalise, labelsRtl]
  rw [hwire.map_lowerByte, List.take_of_length_le]
  rw [List.length_reverse]
  exact hcount

/-- Two questions with the same labels have the same domain. -/
theorem parseQuery_normalise_inj {packet packet' domain domain' : CStr} {qtype qtype' : UInt16}
    (h : parseQuery packet maxDomainLen = some (domain, qtype))
    (h' : parseQuery packet' maxDomainLen = some (domain', qtype'))
    (heq : normalise domain = normalise domain') : domain = domain' := by
  obtain ⟨-, -, -, hjoined⟩ := parseQuery_labels h
  obtain ⟨-, -, -, hjoined'⟩ := parseQuery_labels h'
  rw [(parseQuery_normalise h).1, (parseQuery_normalise h').1, List.reverse_inj] at heq
  rw [hjoined, heq, ← hjoined']

/-- **No label is dropped.** A packet that `parse_query` accepts has one question name,
and unless that is the root, `split_domain_rtl` finds all its labels in the domain,
lower-cased and from the right: the 256 bytes of the domain hold no more than 128. -/
theorem no_label_dropped {packet domain : CStr} {qtype : UInt16}
    (h : parseQuery packet maxDomainLen = some (domain, qtype)) :
    ∃ labels, (∀ ls, HasName packet ls ↔ ls = labels) ∧
      (labels ≠ [] →
        splitDomainRtl domain labelBufSize maxLabels =
          some (labels.map (·.map lowerByte)).reverse ∧
        labels.length ≤ maxLabels) := by
  obtain ⟨labels, hname, hpieces, -⟩ := parseQuery_labels h
  obtain ⟨hnormal, hcount⟩ := parseQuery_normalise h
  refine ⟨labels, fun ls => ⟨fun hls => hls.unique hname, fun hls => hls ▸ hname⟩, fun hne => ?_⟩
  rw [hpieces] at hnormal hcount
  rw [List.length_map] at hcount
  refine ⟨?_, hcount⟩
  rw [splitDomainRtl_eq, if_neg]
  · exact congrArg some hnormal
  · rintro (rfl | hlong)
    · rw [pieces_nil] at hpieces
      exact hne (List.map_eq_nil_iff.mp hpieces.symm)
    · have hshort := (parseQuery_wireName h).short
      rw [maxDomainLen] at hshort
      rw [labelBufSize] at hlong
      omega

/-- A query with three labels. -/
theorem no_label_dropped_three : ∃ labels,
    (∀ ls, HasName (queryPacket 1 [cstr "WWW", cstr "Example", cstr "com"] 1) ls ↔ ls = labels) ∧
    (labels ≠ [] →
      splitDomainRtl (cstr "www.example.com") labelBufSize maxLabels =
        some (labels.map (·.map lowerByte)).reverse ∧
      labels.length ≤ maxLabels) :=
  @no_label_dropped _ _ 1 (by decide +kernel)

/-! ## The name without its first label -/

/-- A domain `parse_query` can produce. -/
def IsQuestion (domain : CStr) : Prop := ∃ packet qtype, question packet = some (domain, qtype)

theorem IsQuestion.short {domain : CStr} (h : IsQuestion domain) : domain.length < labelBufSize := by
  obtain ⟨packet, qtype, hq⟩ := h
  have hshort := (parseQuery_wireName hq).short
  rw [maxDomainLen] at hshort
  rw [labelBufSize]
  omega

theorem parseLabels_fuel_le {maxLen fuel fuel' : Nat} {p out : CStr} (h : p.length < fuel)
    (hle : fuel ≤ fuel') : parseLabels maxLen fuel' p out = parseLabels maxLen fuel p out := by
  induction fuel', hle using Nat.le_induction with
  | base => rfl
  | succ fuel' hle ih => rw [parseLabels_fuel maxLen fuel' p out (Nat.lt_of_lt_of_le h hle), ih]

/-- With less written already, the same labels still fit. -/
theorem parseLabels_shorter {maxLen : Nat} :
    ∀ {fuel : Nat} {p out out' domain rest : CStr},
      parseLabels maxLen fuel p out = some (domain, rest) → out'.length ≤ out.length →
      (out = [] → out' = []) → ∃ domain', parseLabels maxLen fuel p out' = some (domain', rest)
  | 0, _, _, _, _, _, h, _, _ => by
    rw [parseLabels] at h
    cases h
  | _ + 1, [], _, out', _, _, h, _, _ => by
    rw [parseLabels] at h ⊢
    cases h
    exact ⟨out', rfl⟩
  | fuel + 1, len :: p, out, out', domain, rest, h, hlen, hnil => by
    rcases parseLabels_cons.mp h with ⟨hzero, heq⟩ | ⟨hzero, hp, hroom, hbytes, hrounds⟩
    · cases heq
      exact ⟨out', parseLabels_cons.mpr (Or.inl ⟨hzero, rfl⟩)⟩
    · -- what is written in front of the next label stays shorter
      have hshorter : (if out' = [] then [] else out' ++ [dot]).length ≤
          (if out = [] then [] else out ++ [dot]).length := by
        by_cases hout : out = []
        · rw [if_pos hout, if_pos (hnil hout)]
        · rw [if_neg hout]
          split
          · exact Nat.zero_le _
          · rw [List.length_append, List.length_append]
            exact Nat.add_le_add_right hlen _
      have hempty : (if out = [] then [] else out ++ [dot]) = ([] : CStr) →
          (if out' = [] then [] else out' ++ [dot]) = ([] : CStr) := by
        intro hfront
        by_cases hout : out = []
        · exact if_pos (hnil hout)
        · rw [if_neg hout] at hfront
          exact absurd (List.append_eq_nil_iff.mp hfront).2 (List.cons_ne_nil _ _)
      have hlonger : ((if out' = [] then [] else out' ++ [dot]) ++
            (p.take len.toNat).map lowerByte).length ≤
          ((if out = [] then [] else out ++ [dot]) ++ (p.take len.toNat).map lowerByte).length := by
        rw [List.length_append, List.length_append]
        exact Nat.add_le_add_right hshorter _
      obtain ⟨domain', hrounds'⟩ := parseLabels_shorter hrounds hlonger fun hboth =>
        List.append_eq_nil_iff.mpr ((List.append_eq_nil_iff.mp hboth).imp_left hempty)
      exact ⟨domain', parseLabels_cons.mpr (Or.inr ⟨hzero, hp, by omega, hbytes, hrounds'⟩)⟩

/-- A round of the loop that goes through takes a label off. -/
theorem parseLabels_label {maxLen fuel : Nat} {first p out : CStr} {r : CStr × CStr}
    (hfirst : WireLabel first)
    (h : parseLabels maxLen (fuel + 1) (first.length.toUInt8 :: (first ++ p)) out = some r) :
    parseLabels maxLen fuel p
      ((if out = [] then [] else out ++ [dot]) ++ first.map lowerByte) = some r := by
  rcases parseLabels_cons.mp h with ⟨hzero, -⟩ | ⟨-, -, -, -, hrounds⟩
  · exact absurd hzero hfirst.length_ne_zero
  · rwa [hfirst.toNat_length, List.drop_left, List.take_left] at hrounds

/-- **The parent of a question is a question.** -/
theorem IsQuestion.parent {domain : CStr} (h : IsQuestion domain) {ls : List Label} {l : Label}
    (hls : normalise domain = ls ++ [l]) : ∃ parent, IsQuestion parent ∧ normalise parent = ls := by
  obtain ⟨packet, qtype, hquestion⟩ := h
  obtain ⟨labels, ⟨hwire, after, hpacket⟩, hpieces, -⟩ := parseQuery_labels hquestion
  have hnormal := (parseQuery_normalise hquestion).1
  -- the packet has a first label to take away
  obtain ⟨first, rest, rfl⟩ : ∃ first rest, labels = first :: rest := by
    cases labels with
    | nil =>
      rw [hnormal, hpieces] at hls
      cases ls <;> cases hls
    | cons first rest => exact ⟨first, rest, rfl⟩
  have hfirst : WireLabel first := hwire first List.mem_cons_self
  have hcons : packet.drop 12 = first.length.toUInt8 :: (first ++ (wireName rest ++ after)) := by
    rw [hpacket, wireName, wireName, List.map_cons, List.flatten_cons, wireLabel,
      List.cons_append, List.cons_append, List.cons_append, List.append_assoc, List.append_assoc,
      List.append_assoc]
  have hsize : (wireName rest ++ after).length + 12 < packet.length := by
    have hdrop := congrArg List.length hcons
    rw [List.length_drop, List.length_cons, List.length_append] at hdrop
    omega
  obtain ⟨-, zero, hi, lo, behind, hlabels, hqtype⟩ := parseQuery_eq_some.mp hquestion
  rw [hcons] at hlabels
  -- the rest of the loop, started with nothing written
  obtain ⟨parent, hparent⟩ :=
    parseLabels_shorter (parseLabels_label hfirst hlabels) (Nat.zero_le _) fun _ => rfl
  have hheader : (packet.take 12).length = 12 := by
    rw [List.length_take]
    omega
  have hdrop : (packet.take 12 ++ (wireName rest ++ after)).drop 12 = wireName rest ++ after :=
    List.drop_left' hheader
  have hlength : (packet.take 12 ++ (wireName rest ++ after)).length =
      12 + (wireName rest ++ after).length := by
    rw [List.length_append, hheader]
  have hasked : question (packet.take 12 ++ (wireName rest ++ after)) = some (parent, qtype) := by
    have hfuel := @parseLabels_fuel_le maxDomainLen
      ((packet.take 12 ++ (wireName rest ++ after)).length + 1) packet.length
      (wireName rest ++ after) [] (by omega) (by omega)
    refine parseQuery_eq_some.mpr ⟨by omega, zero, hi, lo, behind, ?_, hqtype⟩
    rw [hdrop, ← hfuel, hparent]
  refine ⟨parent, ⟨_, qtype, hasked⟩, ?_⟩
  obtain ⟨labels', hname', hpieces', -⟩ := parseQuery_labels hasked
  have hrest : labels' = rest := hname'.unique
    ⟨fun label hlabel => hwire label (List.mem_cons_of_mem _ hlabel), after, hdrop⟩
  rw [(parseQuery_normalise hasked).1, hpieces', hrest]
  rw [hnormal, hpieces, List.map_cons, List.reverse_cons] at hls
  exact (List.append_inj' hls rfl).1

end Nyet
