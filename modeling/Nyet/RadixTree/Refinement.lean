import Nyet.Lib.Run
import Nyet.RadixTree.Lookup

/-!
# The blocklist over its whole life

One builder and one published tree, under any sequence of the calls of
`radix_tree.c`. The specification keeps no tree at all: it is the list of the
inserts that took effect, cut at every publish or swap. `Refines` relates the
two, every call keeps it, and so the verdict of `radix_lookup` is always the
verdict of the last insert for each path since the last publish or swap.
-/

namespace Nyet

/-- The calls of `radix_tree.c`, all allocations succeeding. -/
inductive TreeOp where
  | builderInit
  | insert (domain : CStr) (e : Entry)
  | publish
  | swap
  | insertLive (domain : CStr) (e : Entry)
  | lookup (now : UInt32) (domain : CStr)

/-- The builder at hand and the tree. -/
structure TreeState where
  builder : RadixTreeBuilder
  tree : RadixTree

/-- `radix_tree_init`, and no builder yet. -/
def TreeState.init : TreeState := ⟨.empty, radixTreeInit⟩

/-- One call. -/
def TreeState.step (s : TreeState) : TreeOp → TreeState
  | .builderInit =>
    match radixBuilderInit [] with
    | some b => { s with builder := b }
    | none => s
  | .insert domain e => { s with builder := (radixInsert [] s.builder domain e).2 }
  | .publish =>
    let (tree, builder) := radixPublish s.tree s.builder
    ⟨builder, tree⟩
  | .swap =>
    let (tree, builder) := radixTreeSwap s.tree s.builder
    ⟨builder, tree⟩
  | .insertLive domain e => { s with tree := (radixTreeInsertLive [] s.tree domain e).2 }
  | .lookup now domain => { s with tree := (radixLookup s.tree now domain).2 }

/-! ## The specification -/

/-- The inserts that took effect, in order. -/
abbrev InsertLog := List (List Label × Entry)

/-- The map of the last insert for each path. -/
def lastInsert (log : InsertLog) : BlockMap := fun ks =>
  (log.reverse.find? fun p => p.1 = ks).map Prod.snd

/-- Which inserts took effect since the last `builderInit`, respectively publish
or swap. `none` is a builder or a tree without a root. -/
structure TreeLog where
  building : Option InsertLog
  published : Option InsertLog

/-- Neither a builder nor a published tree. -/
def TreeLog.init : TreeLog := ⟨none, none⟩

/-- Log an insert, if the domain is insertable. -/
def logInsert (log : Option InsertLog) (domain : CStr) (e : Entry) : Option InsertLog :=
  if Insertable domain then log.map (· ++ [(normalise domain, e)]) else log

/-- What a call adds to the log. -/
def TreeLog.step (s : TreeLog) : TreeOp → TreeLog
  | .builderInit => { s with building := some [] }
  | .insert domain e => { s with building := logInsert s.building domain e }
  | .publish => ⟨none, s.building⟩
  | .swap => ⟨none, s.building⟩
  | .insertLive domain e => { s with published := logInsert s.published domain e }
  | .lookup _ _ => s

/-- The map a log stands for; without a root there is nothing in it. -/
def logMap (log : Option InsertLog) : BlockMap := lastInsert (log.getD [])

theorem lastInsert_concat (log : InsertLog) (ls : List Label) (e : Entry) :
    lastInsert (log ++ [(ls, e)]) = Function.update (lastInsert log) ls (some e) := by
  funext ks
  rw [Function.update_apply]
  unfold lastInsert
  rw [List.reverse_append, List.reverse_singleton, List.singleton_append, List.find?_cons]
  by_cases hks : ks = ls
  · simp [hks]
  · simp [hks, Ne.symm hks]

/-! ## The simulation -/

/-- A root and a log that agree, but for bookkeeping. -/
structure RootRefines (root : Option Node) (log : Option InsertLog) : Prop where
  isSome : root.isSome = log.isSome
  map : (rootMap root).core = (logMap log).core

theorem RootRefines.none : RootRefines none none := ⟨rfl, rfl⟩

/-- Updating two maps that agree. -/
theorem BlockMap.core_update {M N : BlockMap} (h : M.core = N.core) (ls : List Label)
    (e : Entry) :
    BlockMap.core (Function.update M ls (some e)) =
      BlockMap.core (Function.update N ls (some e)) := by
  funext ks
  have hks := congrFun h ks
  unfold BlockMap.core at hks ⊢
  rw [Function.update_apply, Function.update_apply]
  by_cases heq : ks = ls
  · rw [if_pos heq, if_pos heq]
  · rw [if_neg heq, if_neg heq]
    exact hks

/-- An insert that takes effect is one more line of the log. -/
theorem RootRefines.insert {root root' : Option Node} {log : Option InsertLog}
    (h : RootRefines root log) {domain : CStr} {e : Entry} (hins : Insertable domain)
    (hroot : root.isSome = true) (hroot' : root'.isSome = true)
    (hmap : rootMap root' = Function.update (rootMap root) (normalise domain) (some e)) :
    RootRefines root' (logInsert log domain e) := by
  obtain ⟨log, rfl⟩ := Option.isSome_iff_exists.mp (h.isSome ▸ hroot)
  have hlog : logInsert (some log) domain e = some (log ++ [(normalise domain, e)]) :=
    if_pos hins
  rw [hlog]
  refine ⟨hroot', ?_⟩
  show _ = (lastInsert (log ++ [(normalise domain, e)])).core
  rw [lastInsert_concat, hmap]
  exact BlockMap.core_update h.map _ _

/-- An insert that is refused leaves no line in the log either. -/
theorem RootRefines.insert_refused {root : Option Node} {log : Option InsertLog}
    (h : RootRefines root log) {domain : CStr} {e : Entry}
    (hno : ¬ (root.isSome = true ∧ Insertable domain)) :
    RootRefines root (logInsert log domain e) := by
  rw [logInsert]
  split
  next hins =>
    cases log with
    | none => exact h
    | some log => exact absurd ⟨h.isSome, hins⟩ hno
  next => exact h

/-- The tree and builder, and the log of what was put into them. -/
structure Refines (s : TreeState) (l : TreeLog) : Prop where
  builder : RootRefines s.builder.root l.building
  tree : RootRefines s.tree.root l.published

theorem Refines.init : Refines .init .init := ⟨.none, .none⟩

/-- **One call keeps the refinement.** -/
theorem Refines.step {s : TreeState} {l : TreeLog} (h : Refines s l) (op : TreeOp) :
    Refines (s.step op) (l.step op) := by
  cases op with
  | builderInit => exact ⟨⟨rfl, funext fun ks => by cases ks <;> rfl⟩, h.tree⟩
  | insert domain e =>
    refine ⟨?_, h.tree⟩
    obtain ⟨hdone, hrefused⟩ := radixInsert_spec s.builder domain e
    show RootRefines (radixInsert [] s.builder domain e).2.root (logInsert l.building domain e)
    -- an insert is done or refused, by the same condition on both sides
    by_cases hins : s.builder.root.isSome = true ∧ Insertable domain
    · obtain ⟨-, hroot, hmap⟩ := hdone hins
      exact h.builder.insert hins.2 hins.1 hroot hmap
    · rw [hrefused hins]
      exact h.builder.insert_refused hins
  | publish =>
    exact ⟨.none, (radixPublish_isSome s.tree s.builder).trans h.builder.isSome,
      (congrArg BlockMap.core (radixPublish_map s.tree s.builder)).trans h.builder.map⟩
  | swap =>
    exact ⟨.none, (radixTreeSwap_isSome s.tree s.builder).trans h.builder.isSome,
      (congrArg BlockMap.core (radixTreeSwap_map s.tree s.builder)).trans h.builder.map⟩
  | insertLive domain e =>
    refine ⟨h.builder, ?_⟩
    obtain ⟨hdone, hrefused⟩ := radixTreeInsertLive_spec s.tree domain e
    show RootRefines (radixTreeInsertLive [] s.tree domain e).2.root
      (logInsert l.published domain e)
    by_cases hins : s.tree.root.isSome = true ∧ Insertable domain
    · obtain ⟨-, hroot, hmap⟩ := hdone hins
      exact h.tree.insert hins.2 hins.1 hroot hmap
    · rw [(hrefused hins).2]
      exact h.tree.insert_refused hins
  | lookup now domain =>
    exact ⟨h.builder, (radixLookup_isSome s.tree now domain).trans h.tree.isSome,
      (radixLookup_map s.tree now domain).trans h.tree.map⟩

/-- The tree and the log agree after any sequence of calls. -/
theorem Refines.run (ops : List TreeOp) :
    Refines (Lib.run TreeState.step .init ops) (Lib.run TreeLog.step .init ops) :=
  Lib.run_simulation (fun _ _ op hR => hR.step op) Refines.init ops

/-- A lookup in a tree reports the verdict of its log. -/
theorem RootRefines.lookup {t : RadixTree} {log : Option InsertLog}
    (h : RootRefines t.root log) (now : UInt32) {domain : CStr}
    (hlen : domain.length < labelBufSize) :
    (radixLookup t now domain).1.toEntry.map Entry.core =
      ((logMap log).verdict (normalise domain)).map Entry.core := by
  rw [radixLookup_verdict t now hlen, BlockMap.verdict_core, BlockMap.verdict_core]
  exact congrArg (BlockMap.verdict · (normalise domain)) h.map

/-- The status a lookup reports is that of the log's verdict. -/
theorem RootRefines.lookup_outcome {t : RadixTree} {log : Option InsertLog}
    (h : RootRefines t.root log) (now : UInt32) {domain : CStr}
    (hlen : domain.length < labelBufSize) :
    (radixLookup t now domain).1.outcome = (logMap log).outcome (normalise domain) := by
  have hcore := congrArg (Option.map Entry.status) (h.lookup now hlen)
  rw [Option.map_map, Option.map_map] at hcore
  exact hcore

/-- **Blocklist lookup correctness.** After any sequence of calls, a lookup of a
domain the tokeniser accepts reports the verdict of the inserts made since the
last publish or swap, the last one for each path. -/
theorem radixLookup_refines (ops : List TreeOp) (now : UInt32) {domain : CStr}
    (hlen : domain.length < labelBufSize) :
    (radixLookup (Lib.run TreeState.step .init ops).tree now domain).1.toEntry.map Entry.core =
      ((logMap (Lib.run TreeLog.step .init ops).published).verdict (normalise domain)).map
        Entry.core :=
  (Refines.run ops).tree.lookup now hlen

/-- A published block with a live ALLOWED entry below it, seen from further
down. -/
theorem radixLookup_refines_allow_below_block :
    (cstr "A.ok.Example.com").length < labelBufSize ∧
    (radixLookup (Lib.run TreeState.step .init
      [.builderInit, .insert (cstr "example.com") ⟨.blocked, 300, 0, 0, 1, 0, none⟩, .publish,
        .insertLive (cstr "ok.example.com") ⟨.allowed, 0, 0, 0, 1, 0, none⟩]).tree 9
      (cstr "A.ok.Example.com")).1.toEntry.map Entry.core =
      some ⟨.allowed, 0, 0, 0, 1, 0, none⟩ := by
  have hlen : (cstr "A.ok.Example.com").length < labelBufSize := by decide
  refine ⟨hlen, ?_⟩
  rw [radixLookup_refines _ _ hlen]
  decide

end Nyet
