import Nyet.RadixTree.Inheritance

/-!
# Decisions that survive a live insert

A live insert puts an entry at one
path, and the insert of a REVIEW entry, or of a BLOCKED one below nothing but BLOCKED
entries of the same ttl, changes no decision that is BLOCKED or ALLOWED
(`BlockMap.Promotes.decision`). The induction is on the domain from its end: the
longest suffix of a status is the whole domain, or that of the domain without its
first label.
-/

namespace Nyet

/-! ## One label more -/

/-- The longest suffix of a status is the whole domain, or that of the rest. -/
theorem BlockMap.longest_concat (M : BlockMap) (st : Status) (ls : List Label) (l : Label) :
    M.longest st (ls ++ [l]) =
      ((M (ls ++ [l])).filter fun e => e.status = st).or (M.longest st ls) := by
  unfold BlockMap.longest
  rw [suffixPaths_concat, List.reverse_append, List.reverse_singleton, List.singleton_append,
    List.filterMap_cons]
  cases hM : M (ls ++ [l]) with
  | none => rfl
  | some e =>
    rw [List.find?_cons]
    by_cases hst : e.status = st
    · simp [Option.filter, hst]
    · simp [Option.filter, hst]

/-! ## Promotions -/

/-- `M'` is `M` with another entry at `p`: one in REVIEW or none before, and afterwards
one in REVIEW, none, or a BLOCKED one with the ttl of every BLOCKED entry above it. -/
structure BlockMap.Promotes (M M' : BlockMap) (p : List Label) : Prop where
  other : ∀ ks, ks ≠ p → M' ks = M ks
  before : ∀ e, M p = some e → e.status = .review
  after : ∀ e, M' p = some e → e.status = .review ∨
    (e.status = .blocked ∧ ∀ ks old, ks ≠ [] → ks <+: p → M ks = some old →
      old.status = .blocked → old.ttl = e.ttl)

variable {M M' : BlockMap} {p : List Label}

theorem BlockMap.Promotes.filter_before (h : M.Promotes M' p) {st : Status} (hst : st ≠ .review) :
    ((M p).filter fun e => e.status = st) = none := by
  cases hM : M p with
  | none => rfl
  | some e => simp [h.before e hM, hst.symm]

/-- Nothing becomes ALLOWED or ceases to be. -/
theorem BlockMap.Promotes.allowed (h : M.Promotes M' p) (ls : List Label) :
    M'.longest .allowed ls = M.longest .allowed ls := by
  induction ls using List.reverseRecOn with
  | nil => rfl
  | append_singleton ls l ih =>
    rw [BlockMap.longest_concat, BlockMap.longest_concat, ih]
    by_cases hp : ls ++ [l] = p
    · have hafter : ((M' p).filter fun e => e.status = .allowed) = none := by
        cases hM' : M' p with
        | none => rfl
        | some e =>
          rcases h.after e hM' with hst | ⟨hst, -⟩ <;> simp [hst]
      rw [hp, hafter, h.filter_before (by decide)]
    · rw [h.other _ hp]

/-- What is BLOCKED stays so, with the same ttl. -/
theorem BlockMap.Promotes.blocked (h : M.Promotes M' p) {ls : List Label} {e : Entry}
    (he : M.longest .blocked ls = some e) :
    ∃ e', M'.longest .blocked ls = some e' ∧ e'.ttl = e.ttl := by
  induction ls using List.reverseRecOn with
  | nil => cases he
  | append_singleton ls l ih =>
    rw [BlockMap.longest_concat] at he ⊢
    by_cases hp : ls ++ [l] = p
    · rw [hp, h.filter_before (by decide), Option.none_or] at he
      cases hM' : M' p with
      | none =>
        rw [hp, hM']
        exact ih he
      | some new =>
        rcases h.after new hM' with hst | ⟨hst, httl⟩
        · have hfilter : ((some new).filter fun e : Entry => e.status = .blocked) = none := by
            simp [hst]
          rw [hp, hM', hfilter, Option.none_or]
          exact ih he
        · -- the new entry decides, with the ttl of the one that did
          have hfilter : ((some new).filter fun e : Entry => e.status = .blocked) = some new := by
            simp [hst]
          rw [hp, hM', hfilter, Option.some_or]
          obtain ⟨hblocked, ks, hne, hpre, hks⟩ := BlockMap.longest_some he
          have hprefix : ks <+: p := hp ▸ hpre.trans (List.prefix_append ls [l])
          exact ⟨new, rfl, (httl ks e hne hprefix hks hblocked).symm⟩
    · rw [h.other _ hp]
      cases hfilter : (M (ls ++ [l])).filter fun e => e.status = .blocked with
      | none =>
        rw [hfilter, Option.none_or] at he
        exact ih he
      | some found =>
        rw [hfilter, Option.some_or] at he
        exact ⟨found, rfl, congrArg Entry.ttl (Option.some.inj he)⟩

/-- **A promotion changes no decision that is BLOCKED or ALLOWED.** -/
theorem BlockMap.Promotes.decision (h : M.Promotes M' p) {ls : List Label} {st : Status}
    {ttl : UInt32} (hd : M.decision ls = some (st, ttl)) (hst : st ≠ .review) :
    M'.decision ls = some (st, ttl) := by
  rw [BlockMap.decision, BlockMap.verdict] at hd ⊢
  rw [h.allowed]
  cases hallowed : M.longest .allowed ls with
  | some e =>
    rw [hallowed] at hd
    exact hd
  | none =>
    rw [hallowed, Option.none_or] at hd
    rw [Option.none_or]
    cases hblocked : M.longest .blocked ls with
    | some e =>
      obtain ⟨e', he', httl⟩ := h.blocked hblocked
      rw [hblocked, Option.some_or, Option.map_some, (BlockMap.longest_some hblocked).1] at hd
      rw [he', Option.some_or, Option.map_some, (BlockMap.longest_some he').1, httl]
      exact hd
    | none =>
      rw [hblocked, Option.none_or] at hd
      obtain ⟨e, he, heq⟩ := Option.map_eq_some_iff.mp hd
      exact absurd ((Prod.mk.inj heq).1.symm.trans (BlockMap.longest_some he).1) hst

/-- **A live insert that promotes** changes no decision that is BLOCKED or ALLOWED,
whatever the allocator does. -/
theorem radixTreeInsertLive_decision (a : Alloc) {t : RadixTree} {domain : CStr} {e : Entry}
    (hbefore : Insertable domain → ∀ old, t.map (normalise domain) = some old →
      old.status = .review)
    (hafter : e.status = .review ∨ (e.status = .blocked ∧ ∀ ks old, ks ≠ [] →
      ks <+: normalise domain → t.map ks = some old → old.status = .blocked → old.ttl = e.ttl))
    {ls : List Label} {st : Status} {ttl : UInt32} (hd : t.map.decision ls = some (st, ttl))
    (hst : st ≠ .review) :
    (radixTreeInsertLive a t domain e).2.map.decision ls = some (st, ttl) := by
  by_cases hins : Insertable domain
  · have hpromotes : t.map.Promotes (radixTreeInsertLive a t domain e).2.map (normalise domain) := by
      refine ⟨fun ks hks => radixTreeInsertLive_other a t e fun _ => hks, hbefore hins,
        fun new hnew => ?_⟩
      rcases radixTreeInsertLive_self a t domain e with hkeep | hlost | ⟨-, hset⟩
      · exact Or.inl (hbefore hins new (hkeep.symm.trans hnew))
      · cases hlost.symm.trans hnew
      · cases hset.symm.trans hnew
        exact hafter
    exact hpromotes.decision hd hst
  · have hsame : (radixTreeInsertLive a t domain e).2.map = t.map :=
      funext fun ks => radixTreeInsertLive_other a t e fun h => absurd h hins
    rw [hsame]
    exact hd

end Nyet
