import Nyet.RadixTree.Node

/-!
# Tokenising a domain (`split_domain_rtl`)

The tokeniser lower-cases into a buffer and walks two pointers backwards over
it. Pointers are offsets into the buffer. `splitDomainRtl_eq` is its meaning:
the non-empty dot-separated pieces of the lower-cased string, last piece first,
cut off after `maxLabels` of them.
-/

namespace Nyet

/-- The inner loop: `while (label_start > label_buf && *label_start != '.')
label_start--`. -/
def scanBack (buf : CStr) : Nat → Nat
  | 0 => 0
  | i + 1 => if buf[i + 1]? = some dot then i + 1 else scanBack buf i

/-- The outer loop, from `label_end` with the labels found so far. The fuel is
an upper bound on `label_end`, which every round decreases. -/
def splitLoop (buf : CStr) (maxLabels : Nat) : Nat → Nat → List Label → List Label
  | 0, _, labels => labels
  | fuel + 1, labelEnd, labels =>
    if 0 < labelEnd ∧ labels.length < maxLabels then
      let scanned := scanBack buf (labelEnd - 1)
      let labelStart := if buf[scanned]? = some dot then scanned + 1 else scanned
      let label := (buf.take labelEnd).drop labelStart
      let labels := if 0 < label.length then labels ++ [label] else labels
      if labelStart = 0 then labels
      else splitLoop buf maxLabels fuel (labelStart - 1) labels
    else labels

/-- `split_domain_rtl`: `none` is the return value -1 (empty or over-long
input), otherwise the labels in the order they are stored, rightmost first. -/
def splitDomainRtl (domain : CStr) (bufSize maxLabels : Nat) : Option (List Label) :=
  if domain = [] then none
  else if bufSize ≤ domain.length then none
  else
    let labelBuf := domain.map lowerByte
    some (splitLoop labelBuf maxLabels (labelBuf.length + 1) labelBuf.length [])

/-! ## Meaning -/

/-- The non-empty dot-separated pieces of a string, in order. -/
def pieces (s : CStr) : List Label :=
  (s.splitOn dot).filter (· ≠ [])

/-- The normalised label sequence of a domain, rightmost label first:
lower-cased, empty labels dropped, at most `maxLabels` of them. -/
def labelsRtl (maxLabels : Nat) (domain : CStr) : List Label :=
  (pieces (domain.map lowerByte)).reverse.take maxLabels

@[simp] theorem pieces_nil : pieces [] = [] := by simp [pieces]

theorem pieces_of_not_mem {s : CStr} (h : dot ∉ s) :
    pieces s = if s = [] then [] else [s] := by
  rw [pieces]
  rw [List.splitOn_eq_singleton h]
  by_cases hs : s = [] <;> simp [hs]

theorem pieces_append_dot (s t : CStr) : pieces (s ++ dot :: t) = pieces s ++ pieces t := by
  unfold pieces
  rw [List.splitOn_append_cons_self, List.filter_append]

theorem scanBack_le (buf : CStr) : ∀ i, scanBack buf i ≤ i
  | 0 => Nat.le_refl 0
  | i + 1 => by
    rw [scanBack]
    split
    · exact Nat.le_refl _
    · exact Nat.le_succ_of_le (scanBack_le buf i)

/-- The scan stops at a dot or at the start of the buffer. -/
theorem scanBack_stop (buf : CStr) :
    ∀ i, buf[scanBack buf i]? = some dot ∨ scanBack buf i = 0
  | 0 => Or.inr rfl
  | i + 1 => by
    rw [scanBack]
    split
    · next h => exact Or.inl h
    · exact scanBack_stop buf i

/-- Nothing the scan stepped over is a dot. -/
theorem scanBack_skipped (buf : CStr) :
    ∀ i k, scanBack buf i < k → k ≤ i → buf[k]? ≠ some dot
  | 0, k, hlt, hle => by omega
  | i + 1, k, hlt, hle => by
    rw [scanBack] at hlt
    split at hlt
    · omega
    · next h =>
      rcases Nat.lt_or_eq_of_le hle with hk | rfl
      · exact scanBack_skipped buf i k hlt (by omega)
      · exact h

/-- Where `label_start` ends up: the label up to `label_end` holds no dot, and
either it starts the buffer or a dot stands right before it. -/
theorem labelStart_spec {buf : CStr} {labelEnd labelStart : Nat} (hpos : 0 < labelEnd)
    (hstart : labelStart = if buf[scanBack buf (labelEnd - 1)]? = some dot
      then scanBack buf (labelEnd - 1) + 1 else scanBack buf (labelEnd - 1)) :
    labelStart ≤ labelEnd ∧
    (∀ k, labelStart ≤ k → k < labelEnd → buf[k]? ≠ some dot) ∧
    (labelStart = 0 ∨ 0 < labelStart ∧ buf[labelStart - 1]? = some dot) := by
  have hle := scanBack_le buf (labelEnd - 1)
  have hskip := scanBack_skipped buf (labelEnd - 1)
  split at hstart
  · next hdot =>
    subst hstart
    refine ⟨by omega, fun k hk hlt => hskip k (by omega) (by omega), Or.inr ⟨by omega, ?_⟩⟩
    simpa using hdot
  · next hdot =>
    have hzero : scanBack buf (labelEnd - 1) = 0 :=
      (scanBack_stop buf (labelEnd - 1)).resolve_left hdot
    subst hstart
    refine ⟨by omega, fun k hk hlt => ?_, Or.inl hzero⟩
    rcases Nat.lt_or_eq_of_le hk with hk | rfl
    · exact hskip k hk (by omega)
    · exact hdot

/-- The bytes of a label, as a window of the buffer. -/
theorem not_mem_window {buf : CStr} {lo hi : Nat}
    (h : ∀ k, lo ≤ k → k < hi → buf[k]? ≠ some dot) : dot ∉ (buf.take hi).drop lo := by
  intro hmem
  obtain ⟨i, hi', heq⟩ := List.mem_iff_getElem.mp hmem
  rw [List.length_drop, List.length_take] at hi'
  refine h (lo + i) (by omega) (by omega) ?_
  rw [List.getElem_drop, List.getElem_take] at heq
  exact List.getElem?_eq_some_iff.mpr ⟨by omega, heq⟩

/-- Cutting the buffer at a dot. -/
theorem take_eq_append_dot {buf : CStr} {lo hi : Nat} (hpos : 0 < lo) (hle : lo ≤ hi)
    (hdot : buf[lo - 1]? = some dot) :
    buf.take hi = buf.take (lo - 1) ++ dot :: (buf.take hi).drop lo := by
  obtain ⟨hlen, hget⟩ := List.getElem?_eq_some_iff.mp hdot
  have hcut : (buf.take hi).drop (lo - 1) = dot :: (buf.take hi).drop lo := by
    rw [List.drop_eq_getElem_cons (by rw [List.length_take]; omega), List.getElem_take, hget,
      Nat.sub_add_cancel hpos]
  have htake : (buf.take hi).take (lo - 1) = buf.take (lo - 1) := by
    rw [List.take_take, Nat.min_eq_left (by omega)]
  rw [← hcut, ← htake, List.take_append_drop]

/-- The pieces before `labelEnd`: those before the last label, then the label
itself unless it is empty. -/
theorem pieces_take {buf : CStr} {labelEnd labelStart : Nat} (hpos : 0 < labelEnd)
    (hstart : labelStart = if buf[scanBack buf (labelEnd - 1)]? = some dot
      then scanBack buf (labelEnd - 1) + 1 else scanBack buf (labelEnd - 1)) :
    pieces (buf.take labelEnd) =
      pieces (buf.take (labelStart - 1)) ++
        (if (buf.take labelEnd).drop labelStart = [] then []
         else [(buf.take labelEnd).drop labelStart]) := by
  obtain ⟨hle, hnodot, hbefore⟩ := labelStart_spec hpos hstart
  have hlabel := pieces_of_not_mem (not_mem_window hnodot)
  rcases hbefore with rfl | ⟨hpos', hdot⟩
  · rw [List.drop_zero] at hlabel ⊢
    simpa using hlabel
  · conv_lhs => rw [take_eq_append_dot hpos' hle hdot]
    rw [pieces_append_dot, hlabel]

/-- The loop collects the pieces before `label_end`, last first, as long as
there is room. -/
theorem splitLoop_eq (buf : CStr) (maxLabels : Nat) :
    ∀ (fuel labelEnd : Nat) (labels : List Label), labelEnd < fuel →
      splitLoop buf maxLabels fuel labelEnd labels =
        labels ++ (pieces (buf.take labelEnd)).reverse.take (maxLabels - labels.length)
  | 0, _, _, hfuel => by omega
  | fuel + 1, labelEnd, labels, hfuel => by
    rw [splitLoop]
    split
    · next hcond =>
      obtain ⟨hpos, hroom⟩ := hcond
      dsimp only
      generalize hstart : (if buf[scanBack buf (labelEnd - 1)]? = some dot
        then scanBack buf (labelEnd - 1) + 1 else scanBack buf (labelEnd - 1)) = labelStart
      -- one round takes the piece behind the last dot before `label_end`
      have hpieces := pieces_take hpos hstart.symm
      have hle := (labelStart_spec hpos hstart.symm).1
      generalize hlabel : (buf.take labelEnd).drop labelStart = label at hpieces ⊢
      have ih := fun labels => splitLoop_eq buf maxLabels fuel (labelStart - 1) labels (by omega)
      have hzero : labelStart = 0 → pieces (buf.take (labelStart - 1)) = [] := by
        rintro rfl
        simp
      -- an empty piece is skipped, and takes no room
      by_cases hempty : label = []
      · simp only [hempty, List.length_nil, Nat.lt_irrefl, if_false, if_true,
          List.append_nil] at hpieces ⊢
        rw [hpieces]
        split
        · next h0 => simp [hzero h0]
        · exact ih labels
      · have hlen : 0 < label.length := List.length_pos_iff.mpr hempty
        have htake : maxLabels - labels.length = maxLabels - (labels ++ [label]).length + 1 := by
          rw [List.length_append, List.length_singleton]
          omega
        rw [if_pos hlen, if_neg hempty] at *
        rw [hpieces, List.reverse_append, List.reverse_singleton, List.singleton_append, htake,
          List.take_succ_cons]
        split
        · next h0 => simp [hzero h0]
        · rw [ih, List.append_assoc, List.singleton_append]
    · next hcond =>
      by_cases hpos : 0 < labelEnd
      · have : maxLabels - labels.length = 0 := by omega
        simp [this]
      · have : labelEnd = 0 := by omega
        simp [this]

/-- **The tokeniser's meaning.** -/
theorem splitDomainRtl_eq (domain : CStr) (bufSize maxLabels : Nat) :
    splitDomainRtl domain bufSize maxLabels =
      if domain = [] ∨ bufSize ≤ domain.length then none
      else some (labelsRtl maxLabels domain) := by
  rw [splitDomainRtl, labelsRtl]
  by_cases hempty : domain = []
  · simp [hempty]
  · by_cases hlong : bufSize ≤ domain.length
    · simp [hempty, hlong]
    · rw [if_neg hempty, if_neg hlong, if_neg (by tauto)]
      dsimp only
      rw [splitLoop_eq _ _ _ _ _ (Nat.lt_succ_self _), List.take_length]
      simp

end Nyet
