import Mathlib

/-!
# Searching a text with quoted strings

A text of marks and of strings in quotes, in which a quote is escaped, as in JSON: what does a
search for a quoted name and the mark behind it find, that knows nothing of strings? The second
quote of what is searched for follows the name at once, so no escape stands before it and it can
only close a string. So the search stops at a name, the first one that is followed by the mark
(`search_render`), or within a longer name that ends in an escaped quote and the name
(`Mimicked`); what the strings between the marks say does not matter.
-/

namespace Nyet.Lib

/-- How strings are quoted, and what may follow one. -/
structure Quoting (β : Type*) where
  quote : β
  escape : β
  separator : β → Prop
  quote_ne_escape : quote ≠ escape
  quote_not_separator : ¬ separator quote

namespace Quoting

variable {β : Type*} (Q : Quoting β)

/-- What stands between the quotes: a quote or an escape in it is escaped. -/
inductive Body : List β → Prop
  | nil : Body []
  | plain {c : β} {t : List β} (hquote : c ≠ Q.quote) (hescape : c ≠ Q.escape) (ht : Body t) :
    Body (c :: t)
  | escaped {c : β} {t : List β} (ht : Body t) : Body (Q.escape :: c :: t)

/-- A mark, or a string by its body. -/
inductive Token (β : Type*) where
  | mark (c : β)
  | string (body : List β)
  deriving DecidableEq

/-- A token as text. -/
def Token.render : Token β → List β
  | .mark c => [c]
  | .string body => Q.quote :: (body ++ [Q.quote])

/-- Tokens as text. -/
def render (ts : List (Token β)) : List β := ts.flatMap (Token.render Q)

/-- Marks are no quotes, strings are quoted rightly, and a separator follows each. -/
inductive WellFormed : List (Token β) → Prop
  | nil : WellFormed []
  | mark {c : β} {ts : List (Token β)} (hc : c ≠ Q.quote) (hts : WellFormed ts) :
    WellFormed (.mark c :: ts)
  | last {body : List β} (hbody : Q.Body body) : WellFormed [.string body]
  | string {body : List β} {c : β} {ts : List (Token β)} (hbody : Q.Body body)
    (hc : Q.separator c) (hts : WellFormed (.mark c :: ts)) :
    WellFormed (.string body :: .mark c :: ts)

/-- The name in quotes, and the mark. -/
def pattern (name : List β) (m : β) : List β := Q.quote :: (name ++ [Q.quote, m])

/-- A name that can be searched for: no quote or escape in it, and not a separator first. -/
structure Name (name : List β) : Prop where
  plain : ∀ c ∈ name, c ≠ Q.quote ∧ c ≠ Q.escape
  head : ∃ c rest, name = c :: rest ∧ ¬ Q.separator c

/-- A string before the mark ends in a quote and the name. -/
def Mimicked (name : List β) (m : β) (ts : List (Token β)) : Prop :=
  ∃ body, [.string body, .mark m] <:+: ts ∧ Q.quote :: name <:+ body

variable {Q} {name : List β} {m : β}

theorem render_cons (t : Token β) (ts : List (Token β)) :
    Q.render (t :: ts) = t.render Q ++ Q.render ts := List.flatMap_cons

/-- A mark that is no quote is first in the text where it is the first token. -/
theorem head?_render {c : β} (hc : c ≠ Q.quote) (ts : List (Token β)) :
    (Q.render ts).head? = some c ↔ ts.head? = some (.mark c) := by
  cases ts with
  | nil => exact iff_of_false (fun h => by cases h) fun h => by cases h
  | cons t ts =>
    rw [render_cons]
    cases t with
    | mark c' =>
      show some c' = some c ↔ some (Token.mark c') = some (.mark c)
      rw [Option.some_inj, Option.some_inj, Token.mark.injEq]
    | string body =>
      refine iff_of_false (fun h => ?_) fun h => by cases h
      exact hc (Option.some.inj h).symm

theorem Body.of_plain {body : List β} (h : ∀ c ∈ body, c ≠ Q.quote ∧ c ≠ Q.escape) :
    Q.Body body := by
  induction body with
  | nil => exact .nil
  | cons c body ih =>
    obtain ⟨hquote, hescape⟩ := h c List.mem_cons_self
    exact .plain hquote hescape (ih fun c hc => h c (List.mem_cons_of_mem _ hc))

theorem Body.append {body body' : List β} (h : Q.Body body) (h' : Q.Body body') :
    Q.Body (body ++ body') := by
  induction h with
  | nil => exact h'
  | plain hquote hescape _ ih => exact .plain hquote hescape ih
  | escaped _ ih => exact .escaped ih

/-- Where nothing is escaped, no quote stands between the quotes. -/
theorem Body.quote_not_mem {body : List β} (h : Q.Body body) (hescape : Q.escape ∉ body) :
    Q.quote ∉ body := by
  induction h with
  | nil => exact List.not_mem_nil
  | plain hquote _ _ ih =>
    intro hmem
    rcases List.mem_cons.mp hmem with heq | hmem
    · exact hquote heq.symm
    · exact ih (fun h => hescape (List.mem_cons_of_mem _ h)) hmem
  | escaped _ _ => exact absurd List.mem_cons_self hescape

/-- Text behind a string: none, or a separator first. -/
theorem WellFormed.tail_head {body : List β} {ts : List (Token β)}
    (h : Q.WellFormed (.string body :: ts)) :
    Q.Body body ∧ Q.WellFormed ts ∧
      (ts = [] ∨ ∃ c ts', ts = .mark c :: ts' ∧ Q.separator c) := by
  cases h with
  | last hbody => exact ⟨hbody, .nil, Or.inl rfl⟩
  | string hbody hc hts => exact ⟨hbody, hts, Or.inr ⟨_, _, rfl, hc⟩⟩

/-- **Behind a quote within a string**, the name and the closing quote follow only where the
rest of the string is the name. -/
theorem Body.prefix_iff (hname : ∀ c ∈ name, c ≠ Q.quote ∧ c ≠ Q.escape) {body : List β}
    (h : Q.Body body) (rest : List β) :
    name ++ [Q.quote, m] <+: body ++ Q.quote :: rest ↔ body = name ∧ rest.head? = some m := by
  induction h generalizing name with
  | nil =>
    cases name with
    | nil =>
      cases rest with
      | nil => simp
      | cons c rest => simp [eq_comm]
    | cons k name =>
      refine iff_of_false (fun hpre => ?_) fun h => by cases h.1
      exact (hname k List.mem_cons_self).1 (List.cons_prefix_cons.mp hpre).1
  -- a byte that is neither quote nor escape is compared with the name's
  | @plain c body hquote hescape hbody ih =>
    cases name with
    | nil =>
      refine iff_of_false (fun hpre => ?_) fun h => by cases h.1
      exact hquote (List.cons_prefix_cons.mp hpre).1.symm
    | cons k name =>
      have hrest := ih fun c hc => hname c (List.mem_cons_of_mem _ hc)
      rw [List.cons_append, List.cons_append, List.cons_prefix_cons, hrest, List.cons.injEq,
        eq_comm, and_assoc]
  -- the name has no escapes, so it parts from the string at the latest here
  | @escaped c body hbody ih =>
    cases name with
    | nil =>
      refine iff_of_false (fun hpre => ?_) fun h => by cases h.1
      exact Q.quote_ne_escape (List.cons_prefix_cons.mp hpre).1
    | cons k name =>
      refine iff_of_false (fun hpre => ?_) fun h => ?_
      · exact (hname k List.mem_cons_self).2 (List.cons_prefix_cons.mp hpre).1
      · exact (hname k List.mem_cons_self).2 (List.cons.inj h.1).1.symm

/-! ## The search -/

variable [DecidableEq β]

/-- The first occurrence, with what follows it. -/
def search (needle text : List β) : Option (List β) :=
  text.tails.find? fun s => needle <+: s

/-- What follows the first string that is the name and stands before the mark. -/
def afterName (name : List β) (m : β) : List (Token β) → Option (List (Token β))
  | [] => none
  | t :: ts =>
    if t = .string name ∧ ts.head? = some (.mark m) then some ts.tail else afterName name m ts

/-- What stands before the mark somewhere is found. -/
theorem afterName_of_infix {ts : List (Token β)} (h : [.string name, .mark m] <:+: ts) :
    afterName name m ts ≠ none := by
  induction ts with
  | nil => cases List.eq_nil_of_infix_nil h
  | cons t ts ih =>
    rw [afterName]
    split
    · exact Option.some_ne_none _
    · next hnot =>
      rcases List.infix_cons_iff.mp h with hhere | hlater
      · obtain ⟨rfl, ts', rfl⟩ := List.cons_prefix_cons.mp hhere
        exact absurd ⟨rfl, rfl⟩ hnot
      · exact ih hlater

theorem search_cons_of_not {needle : List β} {c : β} {text : List β}
    (h : ¬ needle <+: c :: text) : search needle (c :: text) = search needle text := by
  rw [search]
  rw [List.tails_cons, List.find?_cons_of_neg (by simpa using h)]
  rfl

theorem search_of_starts {needle text : List β} (h : needle <+: text) :
    search needle text = some text := by
  rw [search]
  cases text with
  | nil => exact List.find?_cons_of_pos (by simpa using h)
  | cons c text => rw [List.tails_cons, List.find?_cons_of_pos (by simpa using h)]

/-- **Within a string and at its end** nothing is found that does not mimic the name. -/
theorem Body.search (hname : Q.Name name) {body : List β} (h : Q.Body body) {rest : List β}
    (hrest : ∀ c ∈ rest.head?, Q.separator c)
    (hmimic : ¬ (Q.quote :: name <:+ body ∧ rest.head? = some m)) :
    Quoting.search (Q.pattern name m) (body ++ Q.quote :: rest) =
      Quoting.search (Q.pattern name m) rest := by
  have hskip : ∀ {c : β} {text : List β}, c ≠ Q.quote →
      Quoting.search (Q.pattern name m) (c :: text) = Quoting.search (Q.pattern name m) text :=
    fun hc => search_cons_of_not fun hpre => hc (List.cons_prefix_cons.mp hpre).1.symm
  induction h with
  | nil =>
    refine search_cons_of_not fun hpre => ?_
    -- the closing quote: what follows is not the head of the name
    obtain ⟨k, ks, rfl, hk⟩ := hname.head
    have hpre := (List.cons_prefix_cons.mp hpre).2
    cases rest with
    | nil => exact List.not_mem_nil (hpre.subset List.mem_cons_self)
    | cons c rest => exact hk ((List.cons_prefix_cons.mp hpre).1 ▸ hrest c rfl)
  | plain hquote hescape hbody ih =>
    rw [List.cons_append, hskip hquote]
    exact ih fun hm => hmimic ⟨hm.1.trans (List.suffix_cons _ _), hm.2⟩
  | @escaped c body hbody ih =>
    rw [List.cons_append, List.cons_append, hskip Q.quote_ne_escape.symm]
    have hbehind := ih fun hm =>
      hmimic ⟨hm.1.trans ((List.suffix_cons _ _).trans (List.suffix_cons _ _)), hm.2⟩
    by_cases hc : c = Q.quote
    · rw [hc, search_cons_of_not, hbehind]
      intro hpre
      obtain ⟨rfl, hm⟩ := (hbody.prefix_iff hname.plain rest).mp (List.cons_prefix_cons.mp hpre).2
      exact hmimic ⟨hc ▸ List.suffix_cons _ _, hm⟩
    · rw [hskip hc, hbehind]

/-- **The search stops at the name**: what it finds in a text is the first string that is the
name and stands before the mark, unless a longer one there mimics it. -/
theorem search_render (hname : Q.Name name) (hm : m ≠ Q.quote) {ts : List (Token β)}
    (h : Q.WellFormed ts) (hmimic : ¬ Q.Mimicked name m ts) :
    search (Q.pattern name m) (Q.render ts) =
      (afterName name m ts).map fun rest => Q.pattern name m ++ Q.render rest := by
  induction ts with
  | nil =>
    rw [afterName]
    exact List.find?_cons_of_neg (by simp [pattern])
  | cons t ts ih =>
    have hlater : ¬ Q.Mimicked name m ts := fun ⟨body, hin, hend⟩ =>
      hmimic ⟨body, hin.trans (List.suffix_cons _ _).isInfix, hend⟩
    rw [render_cons, afterName]
    cases t with
    | mark c =>
      cases h with
      | mark hc hts =>
        -- a mark is no quote, so nothing begins there
        have hno : ¬ ((.mark c : Token β) = .string name ∧ ts.head? = some (.mark m)) := by
          rintro ⟨heq, -⟩
          cases heq
        rw [if_neg hno, ← ih hts hlater]
        exact search_cons_of_not fun hpre => hc (List.cons_prefix_cons.mp hpre).1.symm
    | string body =>
      obtain ⟨hbody, hts, hfollows⟩ := h.tail_head
      have hhead := head?_render (Q := Q) hm ts
      have htext : Token.render Q (.string body) ++ Q.render ts =
          Q.quote :: (body ++ Q.quote :: Q.render ts) := by
        show Q.quote :: (body ++ [Q.quote]) ++ Q.render ts = _
        rw [List.cons_append, List.append_assoc, List.singleton_append]
      -- at the opening quote the pattern is spelled exactly if the whole string is the name
      have hopen : Q.pattern name m <+: Q.quote :: (body ++ Q.quote :: Q.render ts) ↔
          body = name ∧ ts.head? = some (.mark m) := by
        rw [pattern, List.cons_prefix_cons, and_iff_right rfl, hbody.prefix_iff hname.plain, hhead]
      rw [htext]
      by_cases hat : body = name ∧ ts.head? = some (.mark m)
      · rw [search_of_starts (hopen.mpr hat), if_pos ⟨congrArg Token.string hat.1, hat.2⟩]
        obtain ⟨rfl, hnext⟩ := hat
        obtain ⟨ts', rfl⟩ := List.head?_eq_some_iff.mp hnext
        rw [render_cons, Option.map_some, pattern]
        simp [Token.render]
      · have hno : ¬ ((.string body : Token β) = .string name ∧ ts.head? = some (.mark m)) := by
          rintro ⟨heq, hnext⟩
          cases heq
          exact hat ⟨rfl, hnext⟩
        rw [if_neg hno, search_cons_of_not (mt hopen.mp hat), ← ih hts hlater]
        -- another string: nothing begins within it, except where it mimics the name
        refine hbody.search hname (fun c hc => ?_) fun hin => hmimic ⟨body, ?_, hin.1⟩
        · rcases hfollows with rfl | ⟨c', ts', rfl, hsep⟩
          · cases hc
          · rw [render_cons] at hc
            cases hc
            exact hsep
        · obtain ⟨ts', rfl⟩ := List.head?_eq_some_iff.mp (hhead.mp hin.2)
          exact ⟨[], ts', rfl⟩

/-- Marks are skipped in the text as among the tokens. -/
theorem dropWhile_render {c : β} (hc : c ≠ Q.quote) (ts : List (Token β)) :
    (Q.render ts).dropWhile (fun b => decide (b = c)) =
      Q.render (ts.dropWhile fun t => decide (t = .mark c)) := by
  induction ts with
  | nil => rfl
  | cons t ts ih =>
    rw [render_cons]
    cases t with
    | mark c' =>
      show (c' :: Q.render ts).dropWhile _ = _
      rw [List.dropWhile_cons, List.dropWhile_cons, ih]
      by_cases heq : c' = c
      · rw [if_pos (decide_eq_true heq), if_pos (decide_eq_true (congrArg Token.mark heq))]
      · have hmark : ¬ (Token.mark c' : Token β) = .mark c := fun h => heq (Token.mark.inj h)
        rw [if_neg (by simpa using heq), if_neg (by simpa using hmark), render_cons]
        rfl
    | string body =>
      show (Q.quote :: (body ++ [Q.quote] ++ Q.render ts)).dropWhile _ = _
      rw [List.dropWhile_cons, List.dropWhile_cons, if_neg (by simpa using hc.symm),
        if_neg (by simp), render_cons]
      rfl

end Quoting

end Nyet.Lib
