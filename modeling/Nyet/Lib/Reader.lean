import Mathlib

/-!
# Readers at an offset

A reader takes a string and an offset and gives what it read with the offset behind it,
so that it may also look elsewhere in the string than where it stands. Two kinds of
laws are kept for every way of composing readers:

- `Stable`: a string that has more at its end is read the same way (`Stable.bind`,
  `Stable.many`);
- `Reads`: a reader gives back what was written, wherever it stands (`Reads.bind`,
  `Reads.many`), provided what is in front of it has some property that more text in front
  does not destroy.
-/

namespace Nyet.Lib

/-- What was read at an offset, and the offset behind it. -/
def Reader (β α : Type) := List β → Nat → Option (α × Nat)

namespace Reader

variable {β α γ : Type}

instance : Monad (Reader β) where
  pure a := fun _ pos => some (a, pos)
  bind r f := fun s pos => (r s pos).bind fun (a, next) => f a s next

/-- Reads nothing. -/
def fail : Reader β α := fun _ _ => none

/-- One element. -/
def one : Reader β β := fun s pos => s[pos]?.map fun b => (b, pos + 1)

/-- So many elements. -/
def block (n : Nat) : Reader β (List β) := fun s pos =>
  if pos + n ≤ s.length then some ((s.drop pos).take n, pos + n) else none

/-- The offset. -/
def here : Reader β Nat := fun _ pos => some (pos, pos)

/-- What stands at another offset, without leaving this one. -/
def elsewhere (r : Reader β α) (target : Nat) : Reader β α := fun s pos =>
  (r s target).map fun (a, _) => (a, pos)

/-- So many times one after another. -/
def many (r : Reader β α) : Nat → Reader β (List α)
  | 0 => pure []
  | n + 1 => do
    let a ← r
    let as ← many r n
    pure (a :: as)

/-- What two readers in a row give was read by the first up to some offset, and from there by the
second. Proofs take a reader apart with this and never unfold it. -/
theorem bind_eq_some {r : Reader β α} {f : α → Reader β γ} {s : List β} {pos stop : Nat}
    {c : γ} : (r >>= f) s pos = some (c, stop) ↔
      ∃ a next, r s pos = some (a, next) ∧ f a s next = some (c, stop) := by
  show (r s pos).bind (fun (a, next) => f a s next) = some (c, stop) ↔ _
  rw [Option.bind_eq_some_iff]
  constructor
  · rintro ⟨⟨a, next⟩, hr, hf⟩
    exact ⟨a, next, hr, hf⟩
  · rintro ⟨a, next, hr, hf⟩
    exact ⟨⟨a, next⟩, hr, hf⟩

/-- A look elsewhere says what stands there and leaves the offset alone; where the look ended is
forgotten. -/
theorem elsewhere_eq_some {r : Reader β α} {s : List β} {target pos stop : Nat} {a : α} :
    elsewhere r target s pos = some (a, stop) ↔
      pos = stop ∧ ∃ next, r s target = some (a, next) := by
  rw [elsewhere]
  rw [Option.map_eq_some_iff]
  constructor
  · rintro ⟨⟨a', next⟩, hr, heq⟩
    cases heq
    exact ⟨rfl, next, hr⟩
  · rintro ⟨rfl, next, hr⟩
    exact ⟨⟨a, next⟩, hr, rfl⟩

/-- As many are read as were asked for: a reader of many that runs out of text gives nothing, not
fewer. -/
theorem many_length {r : Reader β α} {s : List β} :
    ∀ {n pos stop : Nat} {as : List α}, many r n s pos = some (as, stop) → as.length = n
  | 0, _, _, _, h => by
    cases h
    rfl
  | n + 1, _, _, _, h => by
    obtain ⟨a, next, -, h⟩ := bind_eq_some.mp h
    obtain ⟨as, next, has, h⟩ := bind_eq_some.mp h
    cases h
    rw [List.length_cons, many_length has]

/-- A count is read in two parts as well as in one. -/
theorem many_add {r : Reader β α} {s : List β} {m stop : Nat} {cs : List α} :
    ∀ {n pos : Nat}, many r (n + m) s pos = some (cs, stop) ↔
      ∃ as bs mid, many r n s pos = some (as, mid) ∧ many r m s mid = some (bs, stop) ∧
        cs = as ++ bs
  | 0, pos => by
    rw [Nat.zero_add]
    constructor
    · intro h
      exact ⟨[], cs, pos, rfl, h, rfl⟩
    · rintro ⟨as, bs, mid, has, hbs, rfl⟩
      cases has
      exact hbs
  | n + 1, pos => by
    rw [Nat.succ_add]
    constructor
    · intro h
      obtain ⟨a, next, ha, h⟩ := bind_eq_some.mp h
      obtain ⟨tail, last, htail, h⟩ := bind_eq_some.mp h
      cases h
      -- the first element goes to the first part
      obtain ⟨as, bs, mid, has, hbs, rfl⟩ := many_add.mp htail
      exact ⟨a :: as, bs, mid, bind_eq_some.mpr ⟨a, next, ha, bind_eq_some.mpr
        ⟨as, mid, has, rfl⟩⟩, hbs, rfl⟩
    · rintro ⟨as, bs, mid, has, hbs, rfl⟩
      obtain ⟨a, next, ha, has⟩ := bind_eq_some.mp has
      obtain ⟨tail, _, htail, has⟩ := bind_eq_some.mp has
      cases has
      exact bind_eq_some.mpr ⟨a, next, ha, bind_eq_some.mpr
        ⟨tail ++ bs, stop, many_add.mpr ⟨tail, bs, _, htail, hbs, rfl⟩, rfl⟩⟩

/-! ## More at the end -/

/-- From `base` on, `t` has all that `s` has. -/
structure Extends (base : Nat) (s t : List β) : Prop where
  length : s.length ≤ t.length
  same : ∀ i, base ≤ i → i < s.length → t[i]? = s[i]?

/-- More at the end is an extension, whatever the base. -/
theorem Extends.append (base : Nat) (s t : List β) : Extends base s (s ++ t) where
  length := by
    rw [List.length_append]
    omega
  same _ _ hi := List.getElem?_append_left hi

/-- Extensions are put behind one another, as the writer of a message does section by section. -/
theorem Extends.trans {base : Nat} {s t u : List β} (h : Extends base s t)
    (h' : Extends base t u) : Extends base s u where
  length := Nat.le_trans h.length h'.length
  same i hbase hi := by
    rw [h'.same i hbase (Nat.lt_of_lt_of_le hi h.length), h.same i hbase hi]

/-- A block that lies in the string is the same in every extension: what `block` reads and what is
compared with it later. -/
theorem Extends.take_drop {base : Nat} {s t : List β} (h : Extends base s t) {pos n : Nat}
    (hbase : base ≤ pos) (hroom : pos + n ≤ s.length) :
    (t.drop pos).take n = (s.drop pos).take n := by
  refine List.ext_getElem? fun i => ?_
  -- element by element: within the block both strings have the same, and beyond it neither has any
  by_cases hi : i < n
  · rw [List.getElem?_take_of_lt hi, List.getElem?_take_of_lt hi, List.getElem?_drop,
      List.getElem?_drop]
    exact h.same _ (by omega) (by omega)
  · rw [List.getElem?_take_eq_none (by omega), List.getElem?_take_eq_none (by omega)]

/-- What is read from `base` on is read in every extension, and reading moves forward. -/
structure Stable (base : Nat) (r : Reader β α) : Prop where
  read : ∀ {s t : List β} {pos next : Nat} {a : α}, Extends base s t → base ≤ pos →
    r s pos = some (a, next) → r t pos = some (a, next)
  forward : ∀ {s : List β} {pos next : Nat} {a : α}, r s pos = some (a, next) → pos ≤ next

/-- What reads nothing is the same in every string. -/
theorem Stable.pure (base : Nat) (a : α) : Stable base (Pure.pure a : Reader β α) where
  read _ _ h := by
    cases h
    rfl
  forward h := by
    cases h
    exact Nat.le_refl _

/-- A reader that never succeeds has nothing to keep. -/
theorem Stable.fail (base : Nat) : Stable base (fail : Reader β α) where
  read _ _ h := by cases h
  forward h := by cases h

/-- An element that was there is there in every extension, in the same place. -/
theorem Stable.one (base : Nat) : Stable base (one : Reader β β) where
  read {s t pos next a} hext hbase h := by
    obtain ⟨b, hb, heq⟩ := Option.map_eq_some_iff.mp h
    obtain ⟨hlt, -⟩ := List.getElem?_eq_some_iff.mp hb
    refine Option.map_eq_some_iff.mpr ⟨b, ?_, heq⟩
    rw [hext.same pos hbase hlt, hb]
  forward h := by
    obtain ⟨b, -, heq⟩ := Option.map_eq_some_iff.mp h
    cases heq
    exact Nat.le_succ _

/-- So is a block: it was in the string as a whole. -/
theorem Stable.block (base n : Nat) :
    Stable base (block n : Reader β (List β)) where
  read {s t pos next a} hext hbase h := by
    rw [Reader.block] at h ⊢
    split at h
    case isTrue hroom =>
      rw [if_pos (Nat.le_trans hroom hext.length), hext.take_drop hbase hroom]
      exact h
    case isFalse => cases h
  forward h := by
    rw [Reader.block] at h
    split at h
    · cases h
      exact Nat.le_add_right _ _
    · cases h

/-- The offset does not depend on the string. -/
theorem Stable.here (base : Nat) : Stable base (here : Reader β Nat) where
  read _ _ h := by
    cases h
    rfl
  forward h := by
    cases h
    exact Nat.le_refl _

/-- A look elsewhere is stable as long as it looks from the base on: what is in front of the base
may differ. -/
theorem Stable.elsewhere {base target : Nat} {r : Reader β α} (hr : Stable base r)
    (htarget : base ≤ target) : Stable base (elsewhere r target) where
  read hext _ h := by
    obtain ⟨hpos, next, ha⟩ := elsewhere_eq_some.mp h
    exact elsewhere_eq_some.mpr ⟨hpos, next, hr.read hext htarget ha⟩
  forward h := Nat.le_of_eq (elsewhere_eq_some.mp h).1

/-- Reading moves forward, so the second reader starts from the base on as well, and the law
composes. -/
theorem Stable.bind {base : Nat} {r : Reader β α} {f : α → Reader β γ} (hr : Stable base r)
    (hf : ∀ a, Stable base (f a)) : Stable base (r >>= f) where
  read hext hbase h := by
    obtain ⟨a, next, ha, h⟩ := bind_eq_some.mp h
    have hnext := Nat.le_trans hbase (hr.forward ha)
    exact bind_eq_some.mpr ⟨a, next, hr.read hext hbase ha, (hf a).read hext hnext h⟩
  forward h := by
    obtain ⟨a, next, ha, h⟩ := bind_eq_some.mp h
    exact Nat.le_trans (hr.forward ha) ((hf a).forward h)

/-- Any number of stable readers in a row, by induction on the number. -/
theorem Stable.many {base : Nat} {r : Reader β α} (hr : Stable base r) :
    ∀ n, Stable base (many r n)
  | 0 => .pure base []
  | n + 1 => hr.bind fun _ => (Stable.many hr n).bind fun _ => .pure base _

/-! ## What was written -/

/-- Behind any front with the property, the reader gives `a` back for the text written
for it, whatever follows. -/
def Reads (P : List β → Prop) (r : Reader β α) (a : α) (text : List β) : Prop :=
  ∀ front back, P front →
    r (front ++ text ++ back) front.length = some (a, (front ++ text).length)

/-- More text in front does not destroy the property. -/
def Grows (P : List β → Prop) : Prop := ∀ front text, P front → P (front ++ text)

/-- Nothing is written for what reads nothing. -/
theorem Reads.pure (P : List β → Prop) (a : α) : Reads P (Pure.pure a) a [] := by
  intro front back _
  rw [List.append_nil]
  rfl

/-- An element is written as itself. -/
theorem Reads.one (P : List β → Prop) (b : β) : Reads P one b [b] := by
  intro front back _
  rw [Reader.one, List.append_assoc, List.getElem?_append_right (Nat.le_refl _), Nat.sub_self,
    List.length_append]
  rfl

/-- A block is written as itself, its length known to the reader. -/
theorem Reads.block (P : List β → Prop) (text : List β) :
    Reads P (block text.length) text text := by
  intro front back _
  rw [Reader.block, List.append_assoc, List.drop_left, List.take_left, if_pos]
  · rw [List.length_append]
  · rw [List.length_append, List.length_append]
    omega

/-- What is written for two readers in a row is the one text behind the other: to the first the
second text is what follows, to the second the first text is more in front. -/
theorem Reads.bind {P : List β → Prop} (hP : Grows P) {r : Reader β α} {f : α → Reader β γ}
    {a : α} {c : γ} {text rest : List β} (hr : Reads P r a text) (hf : Reads P (f a) c rest) :
    Reads P (r >>= f) c (text ++ rest) := by
  intro front back hfront
  refine bind_eq_some.mpr ⟨a, (front ++ text).length, ?_, ?_⟩
  · -- the second text is part of what follows
    have hread := hr front (rest ++ back) hfront
    rwa [← List.append_assoc, List.append_assoc front] at hread
  · -- the first text is part of what stands in front
    have hread := hf (front ++ text) back (hP _ _ hfront)
    rwa [List.append_assoc front] at hread

/-- Any number of items, each written in its own way; by induction on the items, with `Reads.bind`
for each. -/
theorem Reads.many {P : List β → Prop} (hP : Grows P) {r : Reader β α} {value : γ → α}
    {text : γ → List β} : ∀ {cs : List γ}, (∀ c ∈ cs, Reads P r (value c) (text c)) →
      Reads P (many r cs.length) (cs.map value) (cs.map text).flatten
  | [], _ => .pure P []
  | c :: cs, h => by
    have htail := Reads.many hP fun d hd => h d (List.mem_cons_of_mem c hd)
    have hcons : Reads P (do let as ← Reader.many r cs.length; Pure.pure (value c :: as))
        (value c :: cs.map value) ((cs.map text).flatten ++ []) :=
      Reads.bind hP htail (.pure P _)
    rw [List.append_nil] at hcons
    exact Reads.bind hP (h c List.mem_cons_self) hcons

end Reader

end Nyet.Lib
