import Mathlib

/-!
# Dictionaries that keep their order

A dictionary whose entries stand in the order in which their keys came in: a key that is
set again keeps its place. Every dictionary a loop builds is a `table`, a list of keys with a
function for their values, and each operation says what it makes of one.

Where every entry is kept instead and the last one for a key counts, `lastEntry_append` says
how two lists combine.
-/

namespace Nyet.Lib

/-- The entries, each key once, the oldest first. -/
abbrev Dict (κ ν : Type) := List (κ × ν)

namespace Dict

variable {κ ν : Type}

/-- `list(d.keys())` -/
def keys (d : Dict κ ν) : List κ := d.map Prod.fst

/-- `list(d.values())` -/
def values (d : Dict κ ν) : List ν := d.map Prod.snd

/-- The dictionary with these keys, in their order, and the values `f` gives them. -/
def table (ks : List κ) (f : κ → ν) : Dict κ ν := ks.map fun k => (k, f k)

variable {ks : List κ} {f : κ → ν} {k : κ} {v : ν}

@[simp] theorem keys_table : keys (table ks f) = ks := by
  rw [keys, table]
  rw [List.map_map]
  exact List.map_id ks

@[simp] theorem values_table : values (table ks f) = ks.map f := by
  rw [values, table]
  rw [List.map_map]
  rfl

variable [DecidableEq κ]

/-- `d[k] = v` -/
def set (d : Dict κ ν) (k : κ) (v : ν) : Dict κ ν :=
  if k ∈ d.map Prod.fst then d.map fun p => if p.1 = k then (k, v) else p else d ++ [(k, v)]

/-- `d.get(k)` -/
def get? (d : Dict κ ν) (k : κ) : Option ν := (d.find? fun p => p.1 = k).map Prod.snd

/-- `d.pop(k, None)` -/
def pop (d : Dict κ ν) (k : κ) : Dict κ ν := d.filter fun p => p.1 ≠ k

theorem get?_table : get? (table ks f) k = if k ∈ ks then some (f k) else none := by
  induction ks with
  | nil => rfl
  | cons j ks ih =>
    rw [get?, table] at ih ⊢
    rw [List.map_cons]
    by_cases hj : j = k
    · subst hj
      rw [List.find?_cons_of_pos (by simp), if_pos List.mem_cons_self]
      rfl
    · rw [List.find?_cons_of_neg (by simpa using hj), ih]
      exact if_congr (by simp [Ne.symm hj]) rfl rfl

/-- What is set is what is got, -/
@[simp] theorem get?_set_self (d : Dict κ ν) (k : κ) (v : ν) : get? (set d k v) k = some v := by
  rw [set]
  split
  · next hmem =>
    induction d with
    | nil => cases hmem
    | cons p d ih =>
      rw [get?] at ih ⊢
      rw [List.map_cons]
      by_cases hp : p.1 = k
      · rw [if_pos hp, List.find?_cons_of_pos (by simp)]
        rfl
      · rw [if_neg hp, List.find?_cons_of_neg (by simpa using hp)]
        exact ih ((List.mem_cons.mp hmem).resolve_left (Ne.symm hp))
  · next hnew =>
    have hnone : d.find? (fun p => p.1 = k) = none := by
      refine List.find?_eq_none.mpr fun p hp hk => ?_
      exact hnew (List.mem_map.mpr ⟨p, hp, of_decide_eq_true hk⟩)
    rw [get?, List.find?_append, hnone]
    simp

/-- and the other keys have what they had. -/
theorem get?_set_of_ne (d : Dict κ ν) {j k : κ} (h : j ≠ k) (v : ν) :
    get? (set d k v) j = get? d j := by
  rw [set]
  split
  · clear * - h
    induction d with
    | nil => rfl
    | cons p d ih =>
      rw [get?, get?] at ih ⊢
      rw [List.map_cons]
      by_cases hp : p.1 = k
      · have hj : p.1 ≠ j := fun hj => h (hj.symm.trans hp)
        rw [if_pos hp, List.find?_cons_of_neg (by simpa using h.symm),
          List.find?_cons_of_neg (by simpa using hj), ih]
      · rw [if_neg hp, List.find?_cons, List.find?_cons]
        split
        · rfl
        · exact ih
  · rw [get?, get?, List.find?_append]
    simp [h.symm]

section Fill

variable {ι : Type} {key : ι → κ} {w : ι → ν} {l : List ι}

/-- A loop that sets keys leaves the others alone, -/
theorem get?_foldl_set_of_notMem (d : Dict κ ν) (h : ∀ i ∈ l, key i ≠ k) :
    get? (l.foldl (fun d i => set d (key i) (w i)) d) k = get? d k := by
  induction l generalizing d with
  | nil => rfl
  | cons i l ih =>
    rw [List.foldl_cons, ih _ fun j hj => h j (List.mem_cons_of_mem _ hj)]
    exact get?_set_of_ne d (h i List.mem_cons_self).symm _

/-- and each key it sets has its value, where no two it sets are the same. -/
theorem get?_foldl_set (d : Dict κ ν) (hinj : Function.Injective key) {i : ι} (hi : i ∈ l) :
    get? (l.foldl (fun d i => set d (key i) (w i)) d) (key i) = some (w i) := by
  induction l using List.reverseRecOn with
  | nil => cases hi
  | append_singleton l j ih =>
    rw [List.foldl_append]
    show get? (set _ (key j) (w j)) (key i) = some (w i)
    by_cases hij : i = j
    · rw [hij, get?_set_self]
    · rw [get?_set_of_ne _ (hinj.ne hij)]
      exact ih ((List.mem_append.mp hi).resolve_right fun hj => hij (List.mem_singleton.mp hj))

end Fill

/-- A key that is new comes last. -/
theorem set_table : set (table ks f) k v =
    table (if k ∈ ks then ks else ks ++ [k]) (Function.update f k v) := by
  have hkeys : (table ks f).map Prod.fst = ks := keys_table
  rw [set]
  rw [hkeys]
  split
  · rw [table]
    rw [List.map_map]
    refine List.map_congr_left fun j _ => ?_
    by_cases hj : j = k
    · subst hj
      simp
    · simp [hj]
  · next hnew =>
    unfold table
    rw [List.map_append, List.map_singleton, Function.update_self]
    refine congrArg (· ++ [(k, v)]) (List.map_congr_left fun j hj => ?_)
    rw [Function.update_of_ne]
    rintro rfl
    exact hnew hj

theorem pop_table : pop (table ks f) k = table (ks.filter (· ≠ k)) f := by
  rw [pop, table]
  rw [List.filter_map]
  rfl

/-- Taking out some keys leaves the others. -/
theorem foldl_pop_table (gone : List κ) :
    gone.foldl pop (table ks f) = table (ks.filter (· ∉ gone)) f := by
  induction gone generalizing ks with
  | nil => simp
  | cons k gone ih =>
    rw [List.foldl_cons, pop_table, ih, List.filter_filter]
    refine congrArg (table · f) (List.filter_congr fun j _ => ?_)
    simp [Bool.and_comm]

/-- The keys in the order in which they came in, each once. -/
def firsts (ks : List κ) : List κ := ks.eraseDups

@[simp] theorem mem_firsts : k ∈ firsts ks ↔ k ∈ ks := List.mem_eraseDups

theorem firsts_concat (ks : List κ) (k : κ) :
    firsts (ks ++ [k]) = if k ∈ firsts ks then firsts ks else firsts ks ++ [k] := by
  unfold firsts
  rw [List.eraseDups_append]
  by_cases hk : k ∈ ks
  · rw [if_pos (List.mem_eraseDups.mpr hk)]
    simp [List.removeAll, hk]
  · rw [if_neg fun h => hk (List.mem_eraseDups.mp h)]
    simp [List.removeAll, hk]
    rfl

theorem nodup_firsts (ks : List κ) : (firsts ks).Nodup := by
  induction ks using List.reverseRecOn with
  | nil => exact List.nodup_nil
  | append_singleton ks k ih =>
    rw [firsts_concat]
    split
    · exact ih
    · next hk =>
      rw [List.nodup_append]
      refine ⟨ih, List.nodup_singleton k, ?_⟩
      rintro j hj i hi rfl
      rw [List.mem_singleton.mp hi] at hj
      exact hk hj

/-- **Setting the keys one by one** keeps them in the order in which they came in. -/
theorem set_firsts : set (table (firsts ks) f) k v =
    table (firsts (ks ++ [k])) (Function.update f k v) := by
  rw [set_table, firsts_concat]

/-- **Counting** leaves each key with how often it comes. -/
theorem foldl_count (ks : List κ) :
    ks.foldl (fun d k => set d k ((get? d k).getD 0 + 1)) ([] : Dict κ Nat) =
      table (firsts ks) fun k => ks.countP (· = k) := by
  induction ks using List.reverseRecOn with
  | nil => rfl
  | append_singleton ks k ih =>
    have hcount : (get? (table (firsts ks) fun k => ks.countP (· = k)) k).getD 0 =
        ks.countP (· = k) := by
      rw [get?_table]
      split_ifs with hk
      · rfl
      · refine (List.countP_eq_zero.mpr fun j hj heq => hk (mem_firsts.mpr ?_)).symm
        exact of_decide_eq_true heq ▸ hj
    have hupdate : Function.update (fun k => ks.countP (· = k)) k (ks.countP (· = k) + 1) =
        fun j => (ks ++ [k]).countP (· = j) := by
      funext j
      rw [List.countP_append, List.countP_singleton]
      by_cases hj : j = k
      · rw [hj, Function.update_self, if_pos (decide_eq_true rfl)]
      · rw [Function.update_of_ne hj, if_neg (by simpa using Ne.symm hj), Nat.add_zero]
    rw [List.foldl_append, ih, List.foldl_cons, List.foldl_nil, hcount, set_firsts, hupdate]

end Dict

/-! ## Lists in which the last entry counts -/

section LastEntry

variable {κ κ' ν : Type} [DecidableEq κ] [DecidableEq κ']

/-- What the last entry for a key says. -/
def lastEntry (xs : List (κ × ν)) (k : κ) : Option ν :=
  (xs.reverse.find? fun x => x.1 = k).map Prod.snd

theorem lastEntry_nil (k : κ) : lastEntry ([] : List (κ × ν)) k = none := rfl

/-- **Later entries count first.** -/
theorem lastEntry_append (xs ys : List (κ × ν)) (k : κ) :
    lastEntry (xs ++ ys) k = (lastEntry ys k).or (lastEntry xs k) := by
  show ((xs ++ ys).reverse.find? _).map _ = _
  rw [List.reverse_append, List.find?_append, Option.map_or]
  rfl

theorem lastEntry_singleton (x : κ × ν) (k : κ) :
    lastEntry [x] k = if x.1 = k then some x.2 else none := by
  show ([x].reverse.find? _).map _ = _
  rw [List.reverse_singleton, List.find?_singleton]
  by_cases h : x.1 = k
  · rw [if_pos (decide_eq_true h), if_pos h]
    rfl
  · rw [if_neg (by simpa using h), if_neg h]
    rfl

theorem lastEntry_cons (x : κ × ν) (xs : List (κ × ν)) (k : κ) :
    lastEntry (x :: xs) k = (lastEntry xs k).or (if x.1 = k then some x.2 else none) := by
  rw [← List.singleton_append, lastEntry_append, lastEntry_singleton]

theorem lastEntry_eq_none {xs : List (κ × ν)} {k : κ} :
    lastEntry xs k = none ↔ ∀ x ∈ xs, x.1 ≠ k := by
  rw [lastEntry]
  simp [List.find?_eq_none]

theorem mem_of_lastEntry {xs : List (κ × ν)} {k : κ} {v : ν} (h : lastEntry xs k = some v) :
    (k, v) ∈ xs := by
  obtain ⟨x, hfind, rfl⟩ := Option.map_eq_some_iff.mp h
  have hk : x.1 = k := by simpa using List.find?_some hfind
  rw [← hk]
  exact List.mem_reverse.mp (List.mem_of_find?_eq_some hfind)

/-- **Keys may be renamed**, as long as no other entry gets the key's new name. -/
theorem lastEntry_map (f : κ → κ') {xs : List (κ × ν)} {k : κ}
    (h : ∀ x ∈ xs, f x.1 = f k → x.1 = k) :
    lastEntry (xs.map fun x => (f x.1, x.2)) (f k) = lastEntry xs k := by
  induction xs with
  | nil => rfl
  | cons x xs ih =>
    have hx : f x.1 = f k ↔ x.1 = k := ⟨h x List.mem_cons_self, congrArg f⟩
    rw [List.map_cons, lastEntry_cons, lastEntry_cons,
      ih fun y hy => h y (List.mem_cons_of_mem _ hy)]
    simp only [hx]

end LastEntry

end Nyet.Lib
