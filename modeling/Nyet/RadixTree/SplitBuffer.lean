import Nyet.RadixTree.Split

/-!
# `split_domain_rtl` at its buffer

The tokeniser once more with its pointers, as offsets into `label_buf`: every access is
checked, and so is every subtraction of pointers (`none` is one that leaves the buffer). A
label is the pointer and the length that are stored for it. `split_domain_rtl_pieces` says
that nothing outside of the buffer is touched and what the labels are.
-/

namespace Nyet

/-- `p - q`, if that is not before the start of the buffer. -/
def ptrSub (p q : Nat) : Option Nat := if q ≤ p then some (p - q) else none

/-- The first loop, `n` rounds from `i` on, over the text with its NUL. -/
def lowerInto (text : CStr) : Nat → Nat → CStr → Option CStr
  | 0, _, buf => some buf
  | n + 1, i, buf => do
    let c ← text[i]?
    let buf ← putByte buf i (lowerByte c)
    lowerInto text n (i + 1) buf

/-- `while (label_start > label_buf && *label_start != '.') label_start--` -/
def scanBackIn (buf : CStr) : Nat → Option Nat
  | 0 => some 0
  | p + 1 => do
    let c ← buf[p + 1]?
    if c ≠ dot then scanBackIn buf p else some (p + 1)

/-- The loop over the labels, with `labels` and `label_lens` so far. Every round moves
`label_end`, so `none` when the fuel is used up is a loop that does not end. -/
def splitLoopIn (buf : CStr) (maxLabels : Nat) :
    Nat → Nat → List (Nat × Nat) → Option (List (Nat × Nat))
  | 0, _, _ => none
  | fuel + 1, labelEnd, labels =>
    if 0 < labelEnd ∧ labels.length < maxLabels then do
      let labelStart ← ptrSub labelEnd 1
      let labelStart ← scanBackIn buf labelStart
      let c ← buf[labelStart]?
      let labelStart := if c = dot then labelStart + 1 else labelStart
      let labelLen ← ptrSub labelEnd labelStart
      let labels := if 0 < labelLen then labels ++ [(labelStart, labelLen)] else labels
      if labelStart = 0 then some labels
      else
        let labelEnd ← ptrSub labelStart 1
        splitLoopIn buf maxLabels fuel labelEnd labels
    else some labels

/-- `split_domain_rtl` with `buf_size` bytes of `label_buf`: the labels, or nothing where it
returns -1, and the buffer. -/
def splitDomainRtlIn (domain labelBuf : CStr) (maxLabels : Nat) :
    Option (Option (List (Nat × Nat)) × CStr) :=
  if domain = [] then some (none, labelBuf)
  else if labelBuf.length ≤ domain.length then some (none, labelBuf)
  else do
    let buf ← lowerInto (domain ++ [0]) (domain.length + 1) 0 labelBuf
    let labels ← splitLoopIn buf maxLabels (domain.length + 1) domain.length []
    some (some labels, buf)

/-- The bytes of a label. -/
def labelBytes (buf : CStr) (label : Nat × Nat) : Label := (buf.drop label.1).take label.2

/-! ## The loops -/

theorem ptrSub_of_le {p q : Nat} (h : q ≤ p) : ptrSub p q = some (p - q) := if_pos h

/-- What is lower-cased stands where it was read, and the rest of the buffer is left. -/
theorem lowerInto_spec {text : CStr} :
    ∀ {n : Nat} {front back : CStr}, front.length + n ≤ text.length → n ≤ back.length →
      lowerInto text n front.length (front ++ back) =
        some (front ++ ((text.drop front.length).take n).map lowerByte ++ back.drop n)
  | 0, front, back, _, _ => by
    rw [lowerInto, List.take_zero, List.map_nil, List.append_nil, List.drop_zero]
  | n + 1, front, [], _, hback => by
    rw [List.length_nil] at hback
    omega
  | n + 1, front, old :: back, htext, hback => by
    have hlt : front.length < text.length := by omega
    have hlen : front.length + 1 = (front ++ [lowerByte text[front.length]]).length := by
      rw [List.length_append, List.length_singleton]
    have hnext : front ++ lowerByte text[front.length] :: back =
        front ++ [lowerByte text[front.length]] ++ back := by
      rw [List.append_assoc, List.singleton_append]
    rw [List.length_cons] at hback
    rw [lowerInto, List.getElem?_eq_getElem hlt]
    simp only [Option.bind_eq_bind, Option.bind_some, putByte_append]
    rw [hnext, hlen, lowerInto_spec (by omega) (by omega), ← hlen,
      List.drop_eq_getElem_cons hlt, List.take_succ_cons, List.map_cons, List.drop_succ_cons]
    simp only [List.append_assoc, List.singleton_append]

/-- The lower-cased text with its NUL, in front of what was there. -/
theorem lowerInto_domain {domain labelBuf : CStr} (h : domain.length < labelBuf.length) :
    lowerInto (domain ++ [0]) (domain.length + 1) 0 labelBuf =
      some (domain.map lowerByte ++ 0 :: labelBuf.drop (domain.length + 1)) := by
  have htext : (domain ++ [0]).length = domain.length + 1 := by
    rw [List.length_append, List.length_singleton]
  have hlower := @lowerInto_spec (domain ++ [0]) (domain.length + 1) [] labelBuf
    (by rw [htext, List.length_nil, Nat.zero_add]) h
  rw [List.length_nil, List.nil_append, List.nil_append, List.drop_zero, ← htext, List.take_length,
    List.map_append, List.map_singleton, List.append_assoc, List.singleton_append] at hlower
  rw [← htext]
  exact hlower

/-- Within the text the scan does what `scanBack` does. -/
theorem scanBackIn_eq {buf : CStr} (tail : CStr) :
    ∀ {p : Nat}, p < buf.length → scanBackIn (buf ++ tail) p = some (scanBack buf p)
  | 0, _ => rfl
  | p + 1, h => by
    rw [scanBackIn, scanBack, List.getElem?_append_left h, List.getElem?_eq_getElem h]
    simp only [Option.bind_eq_bind, Option.bind_some, Option.some.injEq]
    by_cases hdot : buf[p + 1] = dot
    · rw [if_neg (not_not.mpr hdot), if_pos hdot]
    · rw [if_pos hdot, if_neg hdot]
      exact scanBackIn_eq tail (Nat.lt_of_succ_lt h)

/-- A label within a part of the buffer is what it is there. -/
theorem labelBytes_append {buf : CStr} (tail : CStr) {label : Nat × Nat}
    (h : label.1 + label.2 ≤ buf.length) : labelBytes (buf ++ tail) label = labelBytes buf label := by
  unfold labelBytes
  rw [List.drop_append_of_le_length (by omega), List.take_append_of_le_length]
  rw [List.length_drop]
  omega

section

variable {buf : CStr} {labels : List (Nat × Nat)} {labelStart labelEnd : Nat}

/-- What a round stores stays within the text. -/
theorem stored_within (hle : labelStart ≤ labelEnd) (hend : labelEnd ≤ buf.length)
    (hlabels : ∀ l ∈ labels, l.1 + l.2 ≤ buf.length) :
    ∀ l ∈ (if 0 < labelEnd - labelStart then labels ++ [(labelStart, labelEnd - labelStart)]
      else labels), l.1 + l.2 ≤ buf.length := by
  intro l hl
  split at hl
  · rcases List.mem_append.mp hl with hl | hl
    · exact hlabels l hl
    · rw [List.mem_singleton.mp hl]
      show labelStart + (labelEnd - labelStart) ≤ buf.length
      omega
  · exact hlabels l hl

/-- What a round stores is the window that `splitLoop` cuts out. -/
theorem map_stored (hend : labelEnd ≤ buf.length) :
    (if 0 < ((buf.take labelEnd).drop labelStart).length then
        labels.map (labelBytes buf) ++ [(buf.take labelEnd).drop labelStart]
      else labels.map (labelBytes buf)) =
      (if 0 < labelEnd - labelStart then labels ++ [(labelStart, labelEnd - labelStart)]
        else labels).map (labelBytes buf) := by
  have hlabel : (buf.take labelEnd).drop labelStart =
      labelBytes buf (labelStart, labelEnd - labelStart) := List.drop_take
  have hlength : ((buf.take labelEnd).drop labelStart).length = labelEnd - labelStart := by
    rw [List.length_drop, List.length_take]
    omega
  rw [hlength, hlabel]
  split
  · rw [List.map_append, List.map_singleton]
  · rfl

end

/-- **The loop over the labels** ends within the text, and stores what `splitLoop` collects. -/
theorem splitLoopIn_spec {buf : CStr} (tail : CStr) (maxLabels : Nat) :
    ∀ {fuel labelEnd : Nat} {labels : List (Nat × Nat)}, labelEnd < fuel → labelEnd ≤ buf.length →
      (∀ l ∈ labels, l.1 + l.2 ≤ buf.length) →
      ∃ labels', splitLoopIn (buf ++ tail) maxLabels fuel labelEnd labels = some labels' ∧
        (∀ l ∈ labels', l.1 + l.2 ≤ buf.length) ∧
        labels'.map (labelBytes buf) =
          splitLoop buf maxLabels fuel labelEnd (labels.map (labelBytes buf))
  | 0, _, _, hfuel, _, _ => by omega
  | fuel + 1, labelEnd, labels, hfuel, hend, hlabels => by
    rw [splitLoopIn, splitLoop, List.length_map]
    split
    · next hcond =>
      have hpos := hcond.1
      have hlt : labelEnd - 1 < buf.length := by omega
      have hscan := scanBack_le buf (labelEnd - 1)
      have hread : (buf ++ tail)[scanBack buf (labelEnd - 1)]? =
          some buf[scanBack buf (labelEnd - 1)] := by
        rw [List.getElem?_append_left (by omega), List.getElem?_eq_getElem]
      simp only [ptrSub_of_le hpos, scanBackIn_eq tail hlt, hread, Option.bind_eq_bind,
        Option.bind_some, List.getElem?_eq_getElem (Nat.lt_of_le_of_lt hscan hlt),
        Option.some.injEq]
      generalize hstart : (if buf[scanBack buf (labelEnd - 1)] = dot
        then scanBack buf (labelEnd - 1) + 1 else scanBack buf (labelEnd - 1)) = labelStart
      -- the scan back stops within the label, so the lengths do not wrap
      have hle : labelStart ≤ labelEnd := by
        rw [← hstart]
        split <;> omega
      rw [ptrSub_of_le hle, Option.bind_some]
      have hstored := stored_within hle hend hlabels
      rw [map_stored hend]
      split
      · exact ⟨_, rfl, hstored, rfl⟩
      · rw [ptrSub_of_le (by omega), Option.bind_some]
        exact splitLoopIn_spec tail maxLabels (by omega) (by omega) hstored
    · exact ⟨labels, rfl, hlabels, rfl⟩

/-- **Both models agree**: nothing outside of the buffer is touched, and the labels that are
stored are those of `splitDomainRtl`. -/
theorem splitDomainRtlIn_spec (domain labelBuf : CStr) (maxLabels : Nat) :
    ∃ labels buf, splitDomainRtlIn domain labelBuf maxLabels = some (labels, buf) ∧
      buf.length = labelBuf.length ∧ (∀ l ∈ labels.getD [], l.1 + l.2 ≤ domain.length) ∧
      labels.map (·.map (labelBytes buf)) = splitDomainRtl domain labelBuf.length maxLabels := by
  rw [splitDomainRtlIn, splitDomainRtl]
  by_cases hempty : domain = []
  · rw [if_pos hempty, if_pos hempty]
    exact ⟨none, labelBuf, rfl, rfl, fun l hl => (List.not_mem_nil hl).elim, rfl⟩
  by_cases hlong : labelBuf.length ≤ domain.length
  · rw [if_neg hempty, if_neg hempty, if_pos hlong, if_pos hlong]
    exact ⟨none, labelBuf, rfl, rfl, fun l hl => (List.not_mem_nil hl).elim, rfl⟩
  have hlen : (domain.map lowerByte).length = domain.length := List.length_map _
  obtain ⟨labels, hloop, hwithin, hlabels⟩ := @splitLoopIn_spec (domain.map lowerByte)
    (0 :: labelBuf.drop (domain.length + 1)) maxLabels (domain.length + 1) domain.length []
    (Nat.lt_succ_self _) (Nat.le_of_eq hlen.symm) (fun l hl => (List.not_mem_nil hl).elim)
  rw [if_neg hempty, if_neg hempty, if_neg hlong, if_neg hlong,
    lowerInto_domain (Nat.lt_of_not_le hlong)]
  simp only [Option.bind_eq_bind, Option.bind_some, hloop]
  refine ⟨some labels, _, rfl, ?_, fun l hl => hlen ▸ hwithin l hl, ?_⟩
  · rw [List.length_append, List.length_cons, List.length_drop, hlen]
    omega
  · -- what stands behind the terminator is in no label
    have hbytes : labels.map
        (labelBytes (domain.map lowerByte ++ 0 :: labelBuf.drop (domain.length + 1))) =
          labels.map (labelBytes (domain.map lowerByte)) :=
      List.map_congr_left fun l hl => labelBytes_append _ (hwithin l hl)
    rw [Option.map_some, hbytes, hlabels, List.map_nil, hlen]

/-- **The tokeniser at its buffer.** For every text, every buffer and every `max_labels`,
`split_domain_rtl` ends and touches nothing outside of the buffer. It returns -1 for a text that
is empty or does not fit, and otherwise the non-empty pieces between the dots of the lower-cased
text, from right to left, up to `max_labels` of them, each one where it stands in the buffer. -/
theorem split_domain_rtl_pieces (domain labelBuf : CStr) (maxLabels : Nat) :
    ∃ labels buf, splitDomainRtlIn domain labelBuf maxLabels = some (labels, buf) ∧
      buf.length = labelBuf.length ∧ (∀ l ∈ labels.getD [], l.1 + l.2 ≤ domain.length) ∧
      labels.map (·.map (labelBytes buf)) =
        if domain = [] ∨ labelBuf.length ≤ domain.length then none
        else some ((pieces (domain.map lowerByte)).reverse.take maxLabels) := by
  obtain ⟨labels, buf, hrun, hlen, hwithin, hlabels⟩ :=
    splitDomainRtlIn_spec domain labelBuf maxLabels
  rw [splitDomainRtl_eq, labelsRtl] at hlabels
  exact ⟨labels, buf, hrun, hlen, hwithin, hlabels⟩

/-- Dots at either end and in a row: two labels, lower-cased where they stood. -/
example : splitDomainRtlIn (cstr "..Ads.Com.") (List.replicate 12 0) 128 =
    some (some [(6, 3), (2, 3)], cstr "..ads.com." ++ [0, 0]) := by decide

end Nyet
