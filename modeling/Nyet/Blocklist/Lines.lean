import Nyet.Blocklist.Tsv

/-!
# The loader line by line

What `strtok_s` and `atoll` make of the columns of a line (`parseRow_columns`), and what
`fgets` makes of a stream: a file whose last line is complete is read before what follows it
(`rowsOf_append`), and a line is parsed if it fits the buffer (`rowsOf_oneLine`).
-/

namespace Nyet

/-! ## Columns -/

/-- A token up to a delimiter or the end of the string. -/
theorem strtok_token {delims field rest : CStr} (hne : field ≠ [])
    (hfield : ∀ c ∈ field, delims.contains c = false)
    (hrest : ∀ d ∈ rest.head?, delims.contains d = true) :
    strtok delims (field ++ rest) = (some field, rest.drop 1) := by
  obtain ⟨c, cs, rfl⟩ := List.exists_cons_of_ne_nil hne
  have hdrop : (c :: cs ++ rest).dropWhile (delims.contains ·) = c :: cs ++ rest := by
    rw [List.cons_append, List.dropWhile_cons_of_neg]
    rw [hfield c List.mem_cons_self]
    exact Bool.false_ne_true
  have hkeep : ∀ x ∈ c :: cs, (!delims.contains x) = true := by
    intro x hx
    rw [hfield x hx]
    rfl
  have hstop : rest.takeWhile (!delims.contains ·) = [] ∧
      rest.dropWhile (!delims.contains ·) = rest := by
    cases rest with
    | nil => exact ⟨rfl, rfl⟩
    | cons d rest =>
      have hd : ¬ (!delims.contains d) = true := by
        rw [hrest d rfl]
        exact Bool.false_ne_true
      exact ⟨List.takeWhile_cons_of_neg hd, List.dropWhile_cons_of_neg hd⟩
  rw [strtok]
  rw [hdrop, if_neg (by simp), List.takeWhile_append_of_pos hkeep,
    List.dropWhile_append_of_pos hkeep, hstop.1, hstop.2, List.append_nil]

theorem strtok_field {delims field rest : CStr} {d : UInt8} (hne : field ≠ [])
    (hfield : ∀ c ∈ field, delims.contains c = false) (hd : delims.contains d = true) :
    strtok delims (field ++ d :: rest) = (some field, rest) := by
  refine strtok_token hne hfield fun x hx => ?_
  obtain rfl : d = x := Option.some_inj.mp hx
  exact hd

/-- A field without a tab, up to the tab after it. -/
theorem strtok_tab {field rest : CStr} (hne : field ≠ []) (hfield : tab ∉ field) :
    strtok [tab] (field ++ tab :: rest) = (some field, rest) := by
  refine strtok_field hne (fun c hc => ?_) (by decide)
  have hctab : c ≠ tab := fun h => hfield (h ▸ hc)
  simpa using hctab

/-- **A line with all its columns parses to the row they make.** -/
theorem parseRow_columns (now : UInt32) {status domain source firstSeen lastSeen hits : CStr}
    (rest : CStr)
    (hne : ∀ field ∈ [status, domain, source, firstSeen, lastSeen, hits], field ≠ [])
    (htab : ∀ field ∈ [status, domain, source, firstSeen, lastSeen, hits], tab ∉ field) :
    parseRow now (status ++ tab :: (domain ++ tab :: (source ++ tab :: (firstSeen ++
        tab :: (lastSeen ++ tab :: (hits ++ tab :: rest)))))) =
      some ⟨domain, ⟨parseStatus (status.headD 0), ((parseTtlNote rest).1.map atollU32).getD 0,
        atoiU32 hits, atollU32 lastSeen, (parseSource (source.headD 0)).toUInt8, 0,
        (parseTtlNote rest).2⟩⟩ := by
  have hfield : ∀ field ∈ [status, domain, source, firstSeen, lastSeen, hits], ∀ next,
      strtok [tab] (field ++ tab :: next) = (some field, next) :=
    fun field h next => strtok_tab (hne field h) (htab field h)
  simp only [List.forall_mem_cons, List.not_mem_nil, false_imp_iff, implies_true, and_true]
    at hfield
  obtain ⟨hstatus, hdomain, hsource, hfirst, hlast, hhits⟩ := hfield
  -- one `strtok` for each column
  rw [parseRow]
  rw [hstatus]
  dsimp only
  rw [hdomain]
  dsimp only
  rw [hsource]
  dsimp only
  rw [hfirst]
  dsimp only
  rw [hlast]
  dsimp only
  rw [hhits]
  rfl

/-- `atoi` and `atoll` on a run of digits. -/
theorem atoInt_digits (bound : Int) {s : CStr} (hne : s ≠ []) (hs : ∀ c ∈ s, isDigit c = true) :
    atoInt bound s = min bound (digitsValue s) := by
  obtain ⟨c, cs, rfl⟩ := List.exists_cons_of_ne_nil hne
  have hc : 48 ≤ c.toNat ∧ c.toNat ≤ 57 := by
    have hdigit := hs c List.mem_cons_self
    rw [isDigit] at hdigit
    simpa only [Bool.and_eq_true, decide_eq_true_eq, UInt8.le_iff_toNat_le, UInt8.reduceToNat]
      using hdigit
  have hother : ∀ d : UInt8, d.toNat < 48 → c ≠ d := by
    rintro d hd rfl
    omega
  have hspace : (c :: cs).dropWhile isSpace = c :: cs := by
    refine List.dropWhile_cons_of_neg ?_
    rw [isSpace]
    simp only [Bool.or_eq_true, Bool.and_eq_true, decide_eq_true_eq, UInt8.le_iff_toNat_le,
      ← UInt8.toNat_inj, UInt8.reduceToNat]
    omega
  have hall : (c :: cs).takeWhile isDigit = c :: cs :=
    List.takeWhile_eq_self_iff.mpr hs
  rw [atoInt]
  rw [hspace]
  dsimp only
  split
  · next heq => exact absurd (List.cons.inj heq).1 (hother 45 (by decide))
  · next heq => exact absurd (List.cons.inj heq).1 (hother 43 (by decide))
  · -- neither a minus nor a plus in front
    rw [if_neg Bool.false_ne_true, hall]

theorem ofInt_toNat (x : UInt32) : UInt32.ofInt x.toNat = x := by
  have hlt := x.toNat_lt
  have hmod : ((x.toNat : Int) % 2 ^ 32).toNat = x.toNat := by omega
  show UInt32.ofNat ((x.toNat : Int) % 2 ^ 32).toNat = x
  rw [hmod, UInt32.ofNat_toNat]

/-- Digits are read right if their number fits 32 bits. -/
theorem atollU32_toNat {s : CStr} (hs : isAllDigits s = true) :
    (atollU32 s).toNat = digitsValue s ↔ digitsValue s < 2 ^ 32 := by
  obtain ⟨hne, hdigits⟩ := Bool.and_eq_true_iff.mp hs
  have hvalue : (atollU32 s).toNat = (min (2 ^ 63 - 1) (digitsValue s : Int) % 2 ^ 32).toNat := by
    rw [atollU32]
    rw [atoInt_digits _ (by simpa using hne) (List.all_eq_true.mp hdigits)]
    show ((min _ _ % 2 ^ 32 : Int).toNat) % 2 ^ 32 = _
    omega
  have hlt := (atollU32 s).toNat_lt
  constructor
  · intro h
    omega
  · intro h
    rw [hvalue]
    omega

/-! ## Streams -/

/-- One round of the loop of `load_blocklist` on a stream that is not at its end: the
row, if the line holds one, and what is left. -/
def nextRow (now : UInt32) (f : CStr) : Option Row × CStr :=
  let n := min (lineBufSize - 1) (throughNewline f)
  let line := asCStr (f.take n)
  let rest := f.drop n
  if line.head? = some 35 ∨ line.head? = some newline ∨ line.head? = some carriageReturn then
    (none, rest)
  else if line.length = lineBufSize - 1 ∧ line.getLast? ≠ some newline then
    (none, rest.drop (throughNewline rest))
  else (parseRow now line, rest)

theorem readRows_nil (now : UInt32) (fuel : Nat) : readRows now fuel [] = [] := by
  cases fuel <;> rfl

theorem readRows_succ (now : UInt32) (fuel : Nat) {f : CStr} (hf : f ≠ []) :
    readRows now (fuel + 1) f =
      (nextRow now f).1.toList ++ readRows now fuel (nextRow now f).2 := by
  rw [readRows, fgets, if_neg hf]
  rw [nextRow]
  dsimp only
  split
  · rfl
  · split
    · rfl
    · split
      · next h => rw [h]; rfl
      · next row h => rw [h]; rfl

theorem throughNewline_le : ∀ f : CStr, throughNewline f ≤ f.length
  | [] => Nat.le_refl 0
  | c :: cs => by
    have ih := throughNewline_le cs
    rw [throughNewline, List.length_cons]
    split <;> omega

theorem throughNewline_pos {f : CStr} (hf : f ≠ []) : 0 < throughNewline f := by
  obtain ⟨c, cs, rfl⟩ := List.exists_cons_of_ne_nil hf
  rw [throughNewline]
  split <;> omega

theorem throughNewline_append (g : CStr) {f : CStr} (hf : newline ∈ f) :
    throughNewline (f ++ g) = throughNewline f := by
  induction f with
  | nil => cases hf
  | cons c cs ih =>
    rw [List.cons_append, throughNewline, throughNewline]
    split
    · rfl
    · next hc =>
      rw [ih ((List.mem_cons.mp hf).resolve_left (Ne.symm hc))]

/-- A round consumes at least a byte. -/
theorem nextRow_length (now : UInt32) {f : CStr} (hf : f ≠ []) :
    (nextRow now f).2.length < f.length := by
  have hpos := throughNewline_pos hf
  have hlen := List.length_pos_iff.mpr hf
  have hrest : (f.drop (min (lineBufSize - 1) (throughNewline f))).length < f.length := by
    rw [List.length_drop]
    rw [lineBufSize]
    omega
  unfold nextRow
  dsimp only
  split
  · exact hrest
  · split
    · exact Nat.lt_of_le_of_lt (List.drop_sublist _ _).length_le hrest
    · exact hrest

/-- More fuel than bytes changes nothing. -/
theorem readRows_fuel (now : UInt32) :
    ∀ {fuel : Nat} {f : CStr}, f.length ≤ fuel → readRows now fuel f = readRows now f.length f
  | 0, f, h => by rw [List.length_eq_zero_iff.mp (Nat.le_zero.mp h)]; rfl
  | fuel + 1, f, h => by
    by_cases hf : f = []
    · rw [hf, readRows_nil, readRows_nil]
    · have hrest := nextRow_length now hf
      obtain ⟨n, hn⟩ := Nat.exists_eq_succ_of_ne_zero (List.length_pos_iff.mpr hf).ne'
      have hfuel : readRows now fuel (nextRow now f).2 =
          readRows now (nextRow now f).2.length (nextRow now f).2 := readRows_fuel now (by omega)
      have hlength : readRows now n (nextRow now f).2 =
          readRows now (nextRow now f).2.length (nextRow now f).2 := readRows_fuel now (by omega)
      rw [hn, readRows_succ now fuel hf, readRows_succ now n hf, hfuel, hlength]

/-- The file is empty or its last line is complete. -/
def EndsInNewline (f : CStr) : Prop := f = [] ∨ f.getLast? = some newline

theorem EndsInNewline.mem {f : CStr} (h : EndsInNewline f) (hf : f ≠ []) : newline ∈ f :=
  List.mem_of_getLast? (h.resolve_left hf)

theorem EndsInNewline.drop {f : CStr} (h : EndsInNewline f) (n : Nat) :
    EndsInNewline (f.drop n) := by
  by_cases hn : f.length ≤ n
  · exact Or.inl (List.drop_eq_nil_of_le hn)
  · refine Or.inr ?_
    have hf : f ≠ [] := by
      rintro rfl
      exact hn (Nat.zero_le n)
    rw [List.getLast?_drop, if_neg hn]
    exact h.resolve_left hf

/-- A round on a file whose last line is complete does not look past its end. -/
theorem nextRow_append (now : UInt32) {f : CStr} (g : CStr) (hf : f ≠ []) (h : EndsInNewline f) :
    nextRow now (f ++ g) = ((nextRow now f).1, (nextRow now f).2 ++ g) := by
  have hle := throughNewline_le f
  have hmin : min (lineBufSize - 1) (throughNewline f) ≤ f.length := by omega
  unfold nextRow
  dsimp only
  rw [throughNewline_append g (h.mem hf), List.take_append_of_le_length hmin,
    List.drop_append_of_le_length hmin]
  split
  · rfl
  · split
    · next hlong =>
      -- an oversized line goes on, so there is something left to skip
      have hrest : f.drop (min (lineBufSize - 1) (throughNewline f)) ≠ [] := by
        intro hnil
        have hall : f.take (min (lineBufSize - 1) (throughNewline f)) = f := by
          rw [← List.append_nil (f.take _), ← hnil, List.take_append_drop]
        obtain ⟨hlength, hlast⟩ := hlong
        have hcstr : asCStr f = f := by
          refine List.IsPrefix.eq_of_length (List.takeWhile_prefix _) ?_
          have hshort : f.length ≤ lineBufSize - 1 := by
            have := congrArg List.length hall
            rw [List.length_take] at this
            omega
          rw [hall] at hlength
          have hprefix := (List.takeWhile_prefix (l := f) (p := fun c => decide (c ≠ 0))).length_le
          rw [asCStr] at hlength ⊢
          omega
        rw [hall, hcstr] at hlast
        exact hlast (h.resolve_left hf)
      rw [throughNewline_append g ((h.drop _).mem hrest),
        List.drop_append_of_le_length (throughNewline_le _)]
    · rfl

theorem nextRow_endsInNewline (now : UInt32) {f : CStr} (h : EndsInNewline f) :
    EndsInNewline (nextRow now f).2 := by
  unfold nextRow
  dsimp only
  split
  · exact h.drop _
  · split
    · exact (h.drop _).drop _
    · exact h.drop _

theorem readRows_append (now : UInt32) (g : CStr) :
    ∀ {fuel : Nat} {f : CStr}, f.length ≤ fuel → EndsInNewline f →
      readRows now (f ++ g).length (f ++ g) = readRows now fuel f ++ readRows now g.length g
  | 0, f, h, _ => by rw [List.length_eq_zero_iff.mp (Nat.le_zero.mp h)]; rfl
  | fuel + 1, f, h, hend => by
    by_cases hf : f = []
    · subst hf
      rw [readRows_nil]
      rfl
    · have hrest := nextRow_length now hf
      have hfg : f ++ g ≠ [] := fun hnil => hf (List.append_eq_nil_iff.mp hnil).1
      obtain ⟨n, hn⟩ := Nat.exists_eq_succ_of_ne_zero (List.length_pos_iff.mpr hfg).ne'
      have hn' : ((nextRow now f).2 ++ g).length ≤ n := by
        rw [List.length_append] at hn ⊢
        omega
      have ih : readRows now ((nextRow now f).2 ++ g).length ((nextRow now f).2 ++ g) =
          readRows now fuel (nextRow now f).2 ++ readRows now g.length g :=
        readRows_append now g (by omega) (nextRow_endsInNewline now hend)
      rw [hn, readRows_succ now n hfg, nextRow_append now g hf hend, readRows_succ now fuel hf,
        readRows_fuel now hn', ih, List.append_assoc]

/-- The rows of two files in a row. -/
theorem rowsOf_append (now : UInt32) {f : CStr} (g : CStr) (h : EndsInNewline f) :
    rowsOf now (some (f ++ g)) = rowsOf now (some f) ++ rowsOf now (some g) :=
  readRows_append now g (Nat.le_refl _) h

theorem throughNewline_eq_length {f : CStr} (h : newline ∉ f.dropLast) :
    throughNewline f = f.length := by
  induction f with
  | nil => rfl
  | cons c cs ih =>
    cases cs with
    | nil =>
      rw [throughNewline]
      split <;> rfl
    | cons d ds =>
      rw [List.dropLast_cons_cons, List.mem_cons, not_or] at h
      rw [throughNewline, if_neg (Ne.symm h.1), ih h.2]
      rfl

/-- One round, and what it leaves. -/
theorem rowsOf_round (now : UInt32) {f : CStr} (hf : f ≠ []) :
    rowsOf now (some f) = (nextRow now f).1.toList ++ rowsOf now (some (nextRow now f).2) := by
  have hrest := nextRow_length now hf
  obtain ⟨n, hn⟩ := Nat.exists_eq_succ_of_ne_zero (List.length_pos_iff.mpr hf).ne'
  show readRows now f.length f = _ ++ readRows now _ _
  rw [hn, readRows_succ now n hf, readRows_fuel now (by omega)]

/-- A buffer that begins like a comment or an empty line is skipped; what is left of an
overlong line is read as if it was one. -/
theorem rowsOf_skipped (now : UInt32) {f : CStr} (hline : newline ∉ f.dropLast)
    (hhead : f.head? = some carriageReturn ∨ f.head? = some 35) :
    rowsOf now (some f) = rowsOf now (some (f.drop (lineBufSize - 1))) := by
  obtain ⟨c, cs, rfl⟩ : ∃ c cs, f = c :: cs := by
    cases f with
    | nil => simp at hhead
    | cons c cs => exact ⟨c, cs, rfl⟩
  have hc : c = carriageReturn ∨ c = 35 := by
    simpa using hhead
  have hnul : c ≠ 0 := by
    rcases hc with rfl | rfl <;> decide
  have hcstr : (asCStr ((c :: cs).take (min (lineBufSize - 1) (cs.length + 1)))).head? =
      some c := by
    obtain ⟨n, hn⟩ : ∃ n, min (lineBufSize - 1) (cs.length + 1) = n + 1 :=
      ⟨min (lineBufSize - 2) cs.length, by unfold lineBufSize; omega⟩
    rw [hn, List.take_succ_cons, asCStr,
      List.takeWhile_cons_of_pos (p := fun c : UInt8 => decide (c ≠ 0)) (decide_eq_true hnul)]
    rfl
  -- one call of `fgets` takes the buffer's worth, whatever is behind it
  have hnext : nextRow now (c :: cs) = (none, (c :: cs).drop (lineBufSize - 1)) := by
    unfold nextRow
    dsimp only
    rw [throughNewline_eq_length hline, List.length_cons, hcstr, if_pos]
    · rw [Nat.min_def]
      split
      · rfl
      · rw [List.drop_eq_nil_of_le (by simp), List.drop_eq_nil_of_le (by simp; omega)]
    · rcases hc with rfl | rfl
      · exact Or.inr (Or.inr rfl)
      · exact Or.inl rfl
  rw [rowsOf_round now (List.cons_ne_nil c cs), hnext]
  rfl

/-- Any other line is parsed if it fits the buffer. -/
theorem rowsOf_oneLine (now : UInt32) {f : CStr} (hline : newline ∉ f.dropLast) (hnul : 0 ∉ f)
    (hhead : f.head? ≠ some carriageReturn ∧ f.head? ≠ some 35) :
    rowsOf now (some f) =
      if f.length < lineBufSize - 1 ∨ f.length = lineBufSize - 1 ∧ f.getLast? = some newline then
        (parseRow now f).toList
      else [] := by
  by_cases hf : f = []
  · subst hf
    rfl
  have hcstr : ∀ n, asCStr (f.take n) = f.take n := by
    intro n
    refine List.takeWhile_eq_self_iff.mpr fun c hc => decide_eq_true ?_
    rintro rfl
    exact hnul (List.mem_of_mem_take hc)
  by_cases hempty : f.head? = some newline
  · -- the newline is all there is
    obtain ⟨c, cs, rfl⟩ := List.exists_cons_of_ne_nil hf
    obtain rfl : c = newline := Option.some.inj hempty
    cases cs with
    | nil => rfl
    | cons d ds => exact absurd List.mem_cons_self hline
  have hhead' : ∀ n, ¬ ((f.take (n + 1)).head? = some 35 ∨ (f.take (n + 1)).head? = some newline ∨
      (f.take (n + 1)).head? = some carriageReturn) := by
    intro n
    rw [List.head?_take, if_neg (Nat.succ_ne_zero n)]
    rintro (h | h | h)
    · exact hhead.2 h
    · exact hempty h
    · exact hhead.1 h
  have hlen := List.length_pos_iff.mpr hf
  obtain ⟨n, hn⟩ : ∃ n, min (lineBufSize - 1) f.length = n + 1 :=
    ⟨min (lineBufSize - 1) f.length - 1, by unfold lineBufSize; omega⟩
  rw [rowsOf_round now hf]
  unfold nextRow
  dsimp only
  rw [throughNewline_eq_length hline, hcstr, hn, if_neg (hhead' n), ← hn]
  by_cases hlong : lineBufSize - 1 < f.length
  · -- the newline, if there is one, is not in the buffer
    rw [min_eq_left (by omega), if_pos, if_neg (by omega)]
    · dsimp only
      rw [throughNewline_eq_length, List.drop_length]
      · rfl
      · rw [List.dropLast_drop_eq_drop_dropLast]
        exact fun h => hline (List.mem_of_mem_drop h)
    · refine ⟨List.length_take_of_le (by omega), fun h => hline ?_⟩
      rw [List.dropLast_eq_take]
      exact List.take_subset_take_left f (by omega) (List.mem_of_getLast? h)
  · rw [min_eq_right (by omega), List.take_length, List.drop_length]
    by_cases hcut : f.length = lineBufSize - 1 ∧ f.getLast? ≠ some newline
    · rw [if_pos hcut, if_neg]
      · rfl
      · rintro (h | h)
        · omega
        · exact hcut.2 h.2
    · rw [if_neg hcut, if_pos]
      · exact List.append_nil _
      · by_cases hlast : f.getLast? = some newline
        · exact (Nat.lt_or_eq_of_le (Nat.le_of_not_lt hlong)).imp_right fun h => ⟨h, hlast⟩
        · exact Or.inl (Nat.lt_of_le_of_ne (Nat.le_of_not_lt hlong) fun h => hcut ⟨h, hlast⟩)

/-- A line that fits the buffer, without a NUL or a second newline, is one row. -/
theorem rowsOf_line (now : UInt32) {body : CStr} {row : Row} (hlen : body.length + 1 < lineBufSize - 1)
    (hbody : ∀ c ∈ body, c ≠ 0 ∧ c ≠ newline) (hhead : body.head?.isSome)
    (hcomment : body.head? ≠ some 35 ∧ body.head? ≠ some carriageReturn)
    (hrow : parseRow now (body ++ [newline]) = some row) :
    rowsOf now (some (body ++ [newline])) = [row] := by
  obtain ⟨c, hc⟩ := Option.isSome_iff_exists.mp hhead
  have hfirst : (body ++ [newline]).head? = body.head? := by
    rw [List.head?_append, hc, Option.some_or]
  rw [rowsOf_oneLine now, if_pos, hrow]
  · rfl
  · exact Or.inl (by rw [List.length_append]; exact hlen)
  · rw [List.dropLast_concat]
    exact fun h => (hbody _ h).2 rfl
  · rw [List.mem_append, List.mem_singleton, not_or]
    exact ⟨fun h => (hbody _ h).1 rfl, by decide⟩
  · rw [hfirst]
    exact ⟨hcomment.2, hcomment.1⟩

end Nyet
