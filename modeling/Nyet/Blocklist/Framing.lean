import Nyet.Blocklist.Lines

/-!
# From the file to its lines (`load_blocklist`)

`linesRead` is the loop of `load_blocklist` up to the row parser: the texts that
`fgets` delivers and neither check skips. `physicalLines` cuts the file at its
newlines. A file is read line by line (`linesRead_eq_flatMap`), so it is enough to
know what one line contributes.

A line that fits the buffer contributes itself, a longer one that is not a comment
is consumed to its end, but a comment is skipped by the bufferful: what is left of
it is read as if it was a line (`linesRead_comment`). How that ends depends on the
bytes at the multiples of 1023.
-/

namespace Nyet

/-- The loop of `load_blocklist` up to `strtok_s`. Every round consumes a byte, so
the length of the stream is fuel enough. -/
def readLines : Nat → CStr → List CStr
  | 0, _ => []
  | fuel + 1, f =>
    match fgets lineBufSize f with
    | none => []
    | some (buf, rest) =>
      let line := asCStr buf
      if line.head? = some 35 ∨ line.head? = some newline ∨
          line.head? = some carriageReturn then   -- '#'
        readLines fuel rest
      else if line.length = lineBufSize - 1 ∧ line.getLast? ≠ some newline then
        -- an oversized line: `while ((c = fgetc(f)) != EOF && c != '\n') {}`
        readLines fuel (rest.drop (throughNewline rest))
      else line :: readLines fuel rest

/-- The texts `load_blocklist` hands to its row parser. -/
def linesRead (f : CStr) : List CStr := readLines f.length f

theorem readRows_eq_filterMap (now : UInt32) (fuel : Nat) (f : CStr) :
    readRows now fuel f = (readLines fuel f).filterMap (parseRow now) := by
  induction fuel generalizing f with
  | zero => rfl
  | succ fuel ih =>
    rw [readRows, readLines]
    cases fgets lineBufSize f with
    | none => rfl
    | some chunk =>
      obtain ⟨buf, rest⟩ := chunk
      dsimp only
      split
      · exact ih rest
      · split
        · exact ih _
        · rw [List.filterMap_cons]
          split
          · next h => rw [h]; exact ih rest
          · next row h => rw [h, ih rest]

/-- The rows of a file are what the parser makes of these texts. -/
theorem rowsOf_eq_filterMap (now : UInt32) (f : CStr) :
    rowsOf now (some f) = (linesRead f).filterMap (parseRow now) :=
  readRows_eq_filterMap now f.length f

/-! ## Physical lines -/

/-- The file cut after each newline. -/
def physicalLines : CStr → List CStr
  | [] => []
  | c :: cs =>
    if c = newline then [newline] :: physicalLines cs
    else
      match physicalLines cs with
      | [] => [[c]]
      | line :: lines => (c :: line) :: lines

/-- A line without its newline. -/
def lineBody (line : CStr) : CStr := if line.getLast? = some newline then line.dropLast else line

/-- What a line that begins so is skipped for. -/
def Skipped (c : Option UInt8) : Prop := c = some 35 ∨ c = some carriageReturn

instance (c : Option UInt8) : Decidable (Skipped c) := inferInstanceAs (Decidable (_ ∨ _))

/-- A line that counts: not empty, not a comment, and at most 1022 characters. -/
def Framed (line : CStr) : Prop :=
  lineBody line ≠ [] ∧ ¬ Skipped line.head? ∧ (lineBody line).length ≤ 1022

instance (line : CStr) : Decidable (Framed line) := inferInstanceAs (Decidable (_ ∧ _ ∧ _))

/-- The lines of the file that count, each by itself. -/
def framedLines (f : CStr) : List CStr := (physicalLines f).filter fun line => Framed line

/-- Some multiple of 1023 falls on a byte of the line from which on it looks like a
line that counts, and all before it fell on a `#` or `'\r'`. -/
def Leaks (text : CStr) : Prop :=
  ∃ k, 0 < k ∧ (∀ j < k, Skipped text[1023 * j]?) ∧ Framed (text.drop (1023 * k))

theorem physicalLines_eq {f : CStr} (hf : f ≠ []) :
    physicalLines f = f.take (throughNewline f) :: physicalLines (f.drop (throughNewline f)) := by
  induction f with
  | nil => exact absurd rfl hf
  | cons c cs ih =>
    rw [physicalLines, throughNewline]
    split
    · next hc => rw [hc]; rfl
    · cases hcs : cs with
      | nil => rfl
      | cons d ds =>
        rw [← hcs, ih (by rw [hcs]; exact List.cons_ne_nil d ds)]
        rfl

/-- Before the first newline there is none. -/
theorem newline_not_mem_take {f : CStr} {m : Nat} (h : m < throughNewline f) :
    newline ∉ f.take m := by
  induction f generalizing m with
  | nil => exact absurd h (Nat.not_lt_zero m)
  | cons c cs ih =>
    cases m with
    | zero => exact List.not_mem_nil
    | succ m =>
      rw [throughNewline] at h
      split at h
      · omega
      · next hc =>
        rw [List.take_succ_cons, List.mem_cons, not_or]
        exact ⟨Ne.symm hc, ih (by omega)⟩

theorem throughNewline_drop {f : CStr} {m : Nat} (h : m < throughNewline f) :
    throughNewline (f.drop m) = throughNewline f - m := by
  induction f generalizing m with
  | nil => rw [List.drop_nil]; exact absurd h (Nat.not_lt_zero m)
  | cons c cs ih =>
    cases m with
    | zero => rfl
    | succ m =>
      rw [throughNewline] at h ⊢
      split at h
      · omega
      · next hc =>
        rw [List.drop_succ_cons, ih (by omega), if_neg hc]
        omega

/-- A line that something follows ends in its newline. -/
theorem getLast?_take_throughNewline {f : CStr} (h : throughNewline f < f.length) :
    (f.take (throughNewline f)).getLast? = some newline := by
  induction f with
  | nil => exact absurd h (Nat.not_lt_zero _)
  | cons c cs ih =>
    rw [throughNewline] at h ⊢
    split
    · next hc =>
      rw [hc]
      rfl
    · next hc =>
      rw [if_neg hc, List.length_cons] at h
      rw [List.take_succ_cons, List.getLast?_cons, ih (by omega)]
      rfl

/-! ## One round -/

/-- One round of the loop: the text for the parser, if it is not skipped, and what is left. -/
def nextLine (f : CStr) : Option CStr × CStr :=
  let n := min (lineBufSize - 1) (throughNewline f)
  let line := asCStr (f.take n)
  let rest := f.drop n
  if line.head? = some 35 ∨ line.head? = some newline ∨ line.head? = some carriageReturn then
    (none, rest)
  else if line.length = lineBufSize - 1 ∧ line.getLast? ≠ some newline then
    (none, rest.drop (throughNewline rest))
  else (some line, rest)

theorem readLines_succ (fuel : Nat) {f : CStr} (hf : f ≠ []) :
    readLines (fuel + 1) f = (nextLine f).1.toList ++ readLines fuel (nextLine f).2 := by
  rw [readLines, fgets, if_neg hf, nextLine]
  dsimp only
  split
  · rfl
  · split <;> rfl

theorem nextLine_snd (f : CStr) : (nextLine f).2 = (nextRow 0 f).2 := by
  rw [nextLine, nextRow]
  split
  · rfl
  · split <;> rfl

theorem readLines_nil (fuel : Nat) : readLines fuel [] = [] := by
  cases fuel <;> rfl

/-- More fuel than bytes changes nothing. -/
theorem readLines_fuel : ∀ {fuel : Nat} {f : CStr}, f.length ≤ fuel → readLines fuel f = linesRead f
  | 0, f, h => by rw [List.length_eq_zero_iff.mp (Nat.le_zero.mp h)]; rfl
  | fuel + 1, f, h => by
    by_cases hf : f = []
    · rw [hf, readLines_nil, linesRead, readLines_nil]
    · have hrest : (nextLine f).2.length < f.length := nextLine_snd f ▸ nextRow_length 0 hf
      obtain ⟨n, hn⟩ := Nat.exists_eq_succ_of_ne_zero (List.length_pos_iff.mpr hf).ne'
      have hfuel : readLines fuel (nextLine f).2 = linesRead (nextLine f).2 :=
        readLines_fuel (by omega)
      have hlength : readLines n (nextLine f).2 = linesRead (nextLine f).2 :=
        readLines_fuel (by omega)
      rw [linesRead, hn, readLines_succ fuel hf, readLines_succ n hf, hfuel, hlength]

theorem linesRead_round {f : CStr} (hf : f ≠ []) :
    linesRead f = (nextLine f).1.toList ++ linesRead (nextLine f).2 := by
  have hrest : (nextLine f).2.length < f.length := nextLine_snd f ▸ nextRow_length 0 hf
  obtain ⟨n, hn⟩ := Nat.exists_eq_succ_of_ne_zero (List.length_pos_iff.mpr hf).ne'
  rw [linesRead, hn, readLines_succ n hf, readLines_fuel (by omega)]

theorem asCStr_take {f : CStr} (hnul : 0 ∉ f) (n : Nat) : asCStr (f.take n) = f.take n := by
  refine List.takeWhile_eq_self_iff.mpr fun c hc => decide_eq_true ?_
  rintro rfl
  exact hnul (List.mem_of_mem_take hc)

/-- **A line that fits the buffer** goes to the parser up to its first NUL, unless it is skipped. -/
theorem linesRead_short {f : CStr} (hf : f ≠ []) (hline : newline ∉ f.dropLast)
    (hshort : f.length < lineBufSize - 1) :
    linesRead f =
      if (asCStr f).head? = some 35 ∨ (asCStr f).head? = some newline ∨
          (asCStr f).head? = some carriageReturn then []
      else [asCStr f] := by
  have hwhole : min (lineBufSize - 1) (throughNewline f) = f.length := by
    rw [throughNewline_eq_length hline, min_eq_right hshort.le]
  have hcut : (asCStr f).length ≤ f.length := (List.takeWhile_prefix _).length_le
  have hnil : linesRead [] = [] := rfl
  rw [linesRead_round hf, nextLine]
  rw [hwhole, List.take_length, List.drop_length]
  split
  · exact hnil
  · rw [if_neg fun h => absurd h.1 (by omega), hnil]
    rfl

theorem lineBody_length (line : CStr) :
    (lineBody line).length =
      if line.getLast? = some newline then line.length - 1 else line.length := by
  rw [lineBody]
  split
  · exact List.length_dropLast
  · rfl

/-- The empty line is the one that begins with its newline. -/
theorem lineBody_eq_nil_iff {line : CStr} (hne : line ≠ []) (hinner : newline ∉ line.dropLast) :
    lineBody line = [] ↔ line.head? = some newline := by
  obtain ⟨c, cs, rfl⟩ := List.exists_cons_of_ne_nil hne
  rw [lineBody]
  cases cs with
  | nil =>
    rw [List.getLast?_singleton, List.head?_cons]
    split
    · next h => exact iff_of_true rfl h
    · next h => exact iff_of_false (List.cons_ne_nil c []) h
  | cons d ds =>
    rw [List.dropLast_cons_cons, List.mem_cons, not_or] at hinner
    have hfirst : (c :: d :: ds).head? ≠ some newline := fun h =>
      hinner.1 (Option.some.inj h).symm
    split
    · rw [List.dropLast_cons_cons]
      exact iff_of_false (List.cons_ne_nil _ _) hfirst
    · exact iff_of_false (List.cons_ne_nil _ _) hfirst

/-- The three conditions in the order of the code. -/
theorem framed_iff {line : CStr} (hne : line ≠ []) (hinner : newline ∉ line.dropLast) :
    Framed line ↔
      ¬ (line.head? = some 35 ∨ line.head? = some newline ∨ line.head? = some carriageReturn) ∧
        (if line.getLast? = some newline then line.length - 1 else line.length) ≤ 1022 := by
  rw [Framed, Skipped, ne_eq, lineBody_eq_nil_iff hne hinner, lineBody_length]
  tauto

/-- A line that fits the buffer is read if it counts. -/
theorem nextLine_fits {f : CStr} (hf : f ≠ []) (hnul : 0 ∉ f)
    (hfits : throughNewline f ≤ lineBufSize - 1) :
    nextLine f = (if Framed (f.take (throughNewline f)) then some (f.take (throughNewline f))
      else none, f.drop (throughNewline f)) := by
  have hpos := throughNewline_pos hf
  have hlength : (f.take (throughNewline f)).length = throughNewline f :=
    List.length_take_of_le (throughNewline_le f)
  have hne : f.take (throughNewline f) ≠ [] := List.ne_nil_of_length_pos (by omega)
  have hinner : newline ∉ (f.take (throughNewline f)).dropLast := by
    rw [List.dropLast_eq_take, List.take_take, hlength, min_eq_left (by omega)]
    exact newline_not_mem_take (by omega)
  rw [nextLine, min_eq_right hfits, asCStr_take hnul]
  have hframed := framed_iff hne hinner
  -- a line that is not ended is the last one
  have hlast : (f.take (throughNewline f)).getLast? ≠ some newline →
      f.drop (throughNewline f) = [] := fun h =>
    List.drop_eq_nil_of_le (Nat.le_of_not_lt fun hlt => h (getLast?_take_throughNewline hlt))
  generalize f.take (throughNewline f) = line at *
  split
  · next hskip => rw [if_neg fun h => (hframed.mp h).1 hskip]
  · next hskip =>
    split
    · next hlong =>
      rw [hlast hlong.2, if_neg]
      · rfl
      · intro h
        have hshort := (hframed.mp h).2
        rw [if_neg hlong.2, hlong.1] at hshort
        exact absurd hshort (by decide)
    · next hwhole =>
      rw [if_pos]
      refine hframed.mpr ⟨hskip, ?_⟩
      rw [hlength, lineBufSize] at *
      split
      · omega
      · next hopen =>
        have hne' : throughNewline f ≠ 1024 - 1 := fun h => hwhole ⟨h, hopen⟩
        omega

/-- Of a longer line a comment loses a bufferful, and anything else is consumed. -/
theorem nextLine_long {f : CStr} (hnul : 0 ∉ f)
    (hlong : lineBufSize - 1 < throughNewline f) :
    nextLine f = (none, if Skipped f.head? then f.drop (lineBufSize - 1)
      else f.drop (throughNewline f)) := by
  have hle := throughNewline_le f
  have hhead : (f.take (lineBufSize - 1)).head? = f.head? := by
    rw [List.head?_take, if_neg (by decide)]
  have hinner := newline_not_mem_take hlong
  have hopen : (f.take (lineBufSize - 1)).getLast? ≠ some newline :=
    fun h => hinner (List.mem_of_getLast? h)
  have hfirst : f.head? ≠ some newline := by
    rw [← hhead]
    exact fun h => hinner (List.mem_of_head? h)
  rw [nextLine, min_eq_left (Nat.le_of_lt hlong), asCStr_take hnul, hhead,
    List.length_take_of_le (Nat.le_of_lt (Nat.lt_of_lt_of_le hlong hle)),
    throughNewline_drop hlong, List.drop_drop, Nat.add_sub_cancel' (Nat.le_of_lt hlong)]
  by_cases hskip : Skipped f.head?
  · rw [if_pos hskip, if_pos]
    exact hskip.imp_right Or.inr
  · rw [if_neg hskip, if_neg, if_pos ⟨rfl, hopen⟩]
    rintro (h | h | h)
    · exact hskip (Or.inl h)
    · exact hfirst h
    · exact hskip (Or.inr h)

/-! ## One line -/

theorem not_framed_of_long {line : CStr} (h : lineBufSize - 1 < line.length) : ¬ Framed line := by
  rintro ⟨-, -, hshort⟩
  rw [lineBody_length] at hshort
  rw [lineBufSize] at h
  split at hshort <;> omega

/-- A line within the buffer is skipped as a whole. -/
theorem not_leaks_of_fits {line : CStr} (h : line.length ≤ lineBufSize - 1) : ¬ Leaks line := by
  rintro ⟨k, hk, -, hframed⟩
  rw [lineBufSize] at h
  rw [List.drop_eq_nil_of_le (by omega)] at hframed
  exact hframed.1 rfl

theorem not_leaks_of_not_skipped {line : CStr} (h : ¬ Skipped line.head?) : ¬ Leaks line := by
  rintro ⟨k, hk, hskipped, -⟩
  have hfirst := hskipped 0 hk
  rw [Nat.mul_zero, ← List.head?_eq_getElem?] at hfirst
  exact h hfirst

/-- What a comment leaks, it leaks at the first boundary or behind it. -/
theorem leaks_iff_drop {text : CStr} (h : Skipped text.head?) :
    Leaks text ↔ Framed (text.drop 1023) ∨ Leaks (text.drop 1023) := by
  have hget : ∀ j, (text.drop 1023)[1023 * j]? = text[1023 * (j + 1)]? := fun j => by
    rw [List.getElem?_drop, Nat.mul_succ, Nat.add_comm]
  have hdrop : ∀ k, (text.drop 1023).drop (1023 * k) = text.drop (1023 * (k + 1)) := fun k => by
    rw [List.drop_drop, Nat.mul_succ, Nat.add_comm]
  constructor
  · rintro ⟨k, hk, hskipped, hframed⟩
    obtain ⟨k, rfl⟩ := Nat.exists_eq_succ_of_ne_zero hk.ne'
    by_cases hzero : k = 0
    · subst hzero
      exact Or.inl hframed
    · refine Or.inr ⟨k, Nat.pos_of_ne_zero hzero, fun j hj => ?_, ?_⟩
      · rw [hget]
        exact hskipped (j + 1) (Nat.succ_lt_succ hj)
      · rw [hdrop]
        exact hframed
  · rintro (hframed | ⟨k, hk, hskipped, hframed⟩)
    · refine ⟨1, Nat.one_pos, fun j hj => ?_, hframed⟩
      obtain rfl : j = 0 := by omega
      rwa [Nat.mul_zero, ← List.head?_eq_getElem?]
    · refine ⟨k + 1, Nat.succ_pos k, fun j hj => ?_, by rwa [← hdrop]⟩
      cases j with
      | zero => rwa [Nat.mul_zero, ← List.head?_eq_getElem?]
      | succ j =>
        rw [← hget]
        exact hskipped j (by omega)

/-- **What the first line contributes**: itself if it counts, else nothing unless it
leaks. -/
theorem linesRead_line {f : CStr} (hf : f ≠ []) (hnul : 0 ∉ f) :
    ∃ part, linesRead f = part ++ linesRead (f.drop (throughNewline f)) ∧
      (Framed (f.take (throughNewline f)) → part = [f.take (throughNewline f)]) ∧
      (¬ Framed (f.take (throughNewline f)) →
        (part = [] ↔ ¬ Leaks (f.take (throughNewline f)))) := by
  induction hn : f.length using Nat.strong_induction_on generalizing f with
  | _ n ih =>
    have hpos := throughNewline_pos hf
    have hlength : (f.take (throughNewline f)).length = throughNewline f :=
      List.length_take_of_le (throughNewline_le f)
    have hhead : (f.take (throughNewline f)).head? = f.head? := by
      rw [List.head?_take, if_neg (by omega)]
    have hround := linesRead_round hf
    have hsize : lineBufSize - 1 = 1023 := rfl
    by_cases hfits : throughNewline f ≤ lineBufSize - 1
    · rw [nextLine_fits hf hnul hfits] at hround
      refine ⟨_, hround, fun hframed => by rw [if_pos hframed]; rfl, fun hskipped => ?_⟩
      rw [if_neg hskipped]
      exact iff_of_true rfl (not_leaks_of_fits (by rw [hlength]; exact hfits))
    · have hlong : lineBufSize - 1 < throughNewline f := by omega
      have hnot : ¬ Framed (f.take (throughNewline f)) :=
        not_framed_of_long (by rw [hlength]; exact hlong)
      rw [nextLine_long hnul hlong, hsize] at hround
      rw [hsize] at hlong
      by_cases hskip : Skipped f.head?
      · -- the rest of the comment is taken for a line
        rw [if_pos hskip] at hround
        have hle := throughNewline_le f
        have hrest : f.drop 1023 ≠ [] := by
          rw [ne_eq, List.drop_eq_nil_iff]
          omega
        have hshorter : (f.drop 1023).length < f.length := by
          rw [List.length_drop]
          omega
        obtain ⟨part, hpart, hcounts, hskips⟩ := ih _ (hn ▸ hshorter) hrest
          (fun h => hnul (List.mem_of_mem_drop h)) rfl
        rw [throughNewline_drop hlong, List.drop_drop,
          Nat.add_sub_cancel' (Nat.le_of_lt hlong)] at hpart
        rw [throughNewline_drop hlong, ← List.drop_take] at hcounts hskips
        refine ⟨part, hround.trans hpart, fun h => absurd h hnot, fun _ => ?_⟩
        rw [leaks_iff_drop (hhead ▸ hskip)]
        by_cases hframed : Framed ((f.take (throughNewline f)).drop 1023)
        · rw [hcounts hframed]
          exact iff_of_false (List.cons_ne_nil _ _) (not_not_intro (Or.inl hframed))
        · rw [hskips hframed]
          exact not_congr (or_iff_right hframed).symm
      · rw [if_neg hskip] at hround
        refine ⟨[], hround, fun h => absurd h hnot, fun _ => ?_⟩
        exact iff_of_true rfl (not_leaks_of_not_skipped (hhead ▸ hskip))

/-! ## The file -/

theorem framedLines_eq {f : CStr} (hf : f ≠ []) :
    framedLines f = (if Framed (f.take (throughNewline f)) then [f.take (throughNewline f)]
      else []) ++ framedLines (f.drop (throughNewline f)) := by
  rw [framedLines, physicalLines_eq hf, List.filter_cons]
  split
  · next h => rw [if_pos (of_decide_eq_true h)]; rfl
  · next h => rw [if_neg fun hframed => h (decide_eq_true hframed)]; rfl

/-- Every line that counts is read, so the loader reads no less than these, and it
reads just these if no comment leaks. -/
theorem linesRead_spec {f : CStr} (hnul : 0 ∉ f) :
    (framedLines f).length ≤ (linesRead f).length ∧
      (linesRead f = framedLines f ↔ ∀ line ∈ physicalLines f, ¬ Leaks line) := by
  induction hn : f.length using Nat.strong_induction_on generalizing f with
  | _ n ih =>
    by_cases hf : f = []
    · subst hf
      exact ⟨Nat.le_refl _, iff_of_true rfl fun line hline => by cases hline⟩
    · have hpos := throughNewline_pos hf
      have hlen := List.length_pos_iff.mpr hf
      have hshorter : (f.drop (throughNewline f)).length < f.length := by
        rw [List.length_drop]
        omega
      obtain ⟨part, hread, hcounts, hskips⟩ := linesRead_line hf hnul
      obtain ⟨hless, hiff⟩ := ih _ (hn ▸ hshorter)
        (fun h => hnul (List.mem_of_mem_drop h)) rfl
      rw [hread, framedLines_eq hf, physicalLines_eq hf, List.forall_mem_cons, ← hiff,
        List.length_append, List.length_append]
      by_cases hframed : Framed (f.take (throughNewline f))
      · have hnot : ¬ Leaks (f.take (throughNewline f)) := by
          rintro ⟨k, hk, hskipped, -⟩
          have hfirst := hskipped 0 hk
          rw [Nat.mul_zero, ← List.head?_eq_getElem?] at hfirst
          exact hframed.2.1 hfirst
        rw [hcounts hframed, if_pos hframed]
        exact ⟨Nat.add_le_add_left hless _, by
          rw [List.append_cancel_left_eq, and_iff_right hnot]⟩
      · rw [if_neg hframed, List.length_nil, Nat.zero_add, List.nil_append,
          ← hskips hframed]
        refine ⟨Nat.le_trans hless (Nat.le_add_left _ _), fun heq => ?_, ?_⟩
        · -- what a comment leaks is one line too many
          have hsum := congrArg List.length heq
          rw [List.length_append] at hsum
          have hnil : part = [] := List.length_eq_zero_iff.mp (by omega)
          rw [hnil, List.nil_append] at heq
          exact ⟨hnil, heq⟩
        · rintro ⟨hnil, heq⟩
          rw [hnil, List.nil_append, heq]

/-- **When the file is read line by line**: unless a comment, or a line that begins
with `'\r'`, leaks. -/
theorem line_framing_iff {f : CStr} (hnul : 0 ∉ f) :
    linesRead f = framedLines f ↔ ∀ line ∈ physicalLines f, ¬ Leaks line :=
  (linesRead_spec hnul).2

/-- A comment line, an empty line and a row. -/
theorem line_framing_small :
    linesRead (cstr "# hosts\n\nB\tads.example\n") =
        framedLines (cstr "# hosts\n\nB\tads.example\n") ↔
      ∀ line ∈ physicalLines (cstr "# hosts\n\nB\tads.example\n"), ¬ Leaks line :=
  line_framing_iff (by decide)

/-- A comment of 1023 bytes with a row as its tail: the tail is read as a row. -/
theorem long_comment_leaks :
    let file := 35 :: List.replicate 1022 120 ++ cstr "B\tads.example\n"
    0 ∉ file ∧ linesRead file ≠ framedLines file := by
  decide +kernel

end Nyet
