import Nyet.Lib.QuotedText

/-!
# JSON and the first field of a name

JSON as a tree of what its grammar builds, and as tokens: bytes and strings. A text is a tree's
where it is the tree's tokens with white space in between (`significant`). Its strings are quoted
rightly (`wellFormed_of_significant`), and whoever looks among its tokens for the first string that
is a name and stands before a colon comes to the value of the first field of that name
(`afterName_tokens`): the strings that are values stand before something else.
-/

namespace Nyet.Lib.Json

/-- Strings in JSON; a `:`, `,`, `]`, `}` or white space may follow one. -/
def quoting : Quoting UInt8 where
  quote := 34
  escape := 92
  separator c := c ∈ [58, 44, 93, 125, 32, 9, 10, 13]
  quote_ne_escape := by decide
  quote_not_separator := by decide

instance decidableSeparator (c : UInt8) : Decidable (quoting.separator c) :=
  inferInstanceAs (Decidable (c ∈ ([58, 44, 93, 125, 32, 9, 10, 13] : List UInt8)))

abbrev Token := Quoting.Token UInt8

/-! ## The grammar -/

/-- Space, tab, line feed, carriage return. -/
def white (c : UInt8) : Bool := c = 0x20 || c = 0x09 || c = 0x0A || c = 0x0D

/-- `[`, `]`, `{`, `}`, `:`, `,` -/
def structural (c : UInt8) : Bool :=
  c = 0x5B || c = 0x5D || c = 0x7B || c = 0x7D || c = 0x3A || c = 0x2C

/-- What stands between two quotes. -/
structure Text where
  body : List UInt8
  quoted : quoting.Body body

/-- A number, `true`, `false` or `null`; any bytes that begin and end nothing else. -/
structure Scalar where
  text : List UInt8
  ne_nil : text ≠ []
  plain : ∀ c ∈ text, c ≠ 34 ∧ white c = false ∧ structural c = false

/-- The parts of the grammar: values, what an array holds, what an object holds. -/
inductive Part where
  | value
  | items
  | members

/-- **A part of a JSON text.** -/
inductive Tree : Part → Type where
  | scalar (s : Scalar) : Tree .value
  | string (s : Text) : Tree .value
  | array (items : Tree .items) : Tree .value
  | object (members : Tree .members) : Tree .value
  | noItems : Tree .items
  | item (first : Tree .value) (rest : Tree .items) : Tree .items
  | noMembers : Tree .members
  | member (name : Text) (value : Tree .value) (rest : Tree .members) : Tree .members

abbrev Value := Tree .value

/-- A comma stands before all but the first. -/
def withComma : List Token → List Token
  | [] => []
  | t :: ts => .mark 44 :: t :: ts

/-- The tokens without white space. -/
def Tree.tokens {p : Part} : Tree p → List Token
  | .scalar s => s.text.map .mark
  | .string s => [.string s.body]
  | .array items => .mark 91 :: (items.tokens ++ [.mark 93])
  | .object members => .mark 123 :: (members.tokens ++ [.mark 125])
  | .noItems => []
  | .item first rest => first.tokens ++ withComma rest.tokens
  | .noMembers => []
  | .member name value rest => .string name.body :: .mark 58 :: (value.tokens ++ withComma rest.tokens)

/-- The fields of all objects, in the order in which their names stand in the text. -/
def Tree.fields {p : Part} : Tree p → List (List UInt8 × Value)
  | .scalar _ => []
  | .string _ => []
  | .array items => items.fields
  | .object members => members.fields
  | .noItems => []
  | .item first rest => first.fields ++ rest.fields
  | .noMembers => []
  | .member name value rest => (name.body, value) :: (value.fields ++ rest.fields)

/-- The value of the first field of this name. -/
def Tree.firstField {p : Part} (t : Tree p) (name : List UInt8) : Option Value :=
  (t.fields.find? fun field => field.1 = name).map Prod.snd

/-- A token that is white space. -/
def isWhite : Token → Bool
  | .mark c => white c
  | .string _ => false

/-- The tokens that are no white space. A text spells a tree where these are the tree's; it may
break off a number too, which JSON does not allow. -/
def significant (ts : List Token) : List Token := ts.filter fun t => !isWhite t

/-- Tokens from the first that is no white space on. -/
def skipWhite (ts : List Token) : List Token := ts.dropWhile isWhite

/-! ## White space -/

/-- White space means nothing. -/
theorem significant_white {t : Token} (ht : isWhite t = true) (ts : List Token) :
    significant (t :: ts) = significant ts :=
  List.filter_cons_of_neg (by simp [ht])

/-- Everything else does. -/
theorem significant_cons {t : Token} (ht : isWhite t = false) (ts : List Token) :
    significant (t :: ts) = t :: significant ts :=
  List.filter_cons_of_pos (by simp [ht])

/-- So it makes no difference whether it is skipped first. -/
theorem significant_skipWhite (ts : List Token) : significant (skipWhite ts) = significant ts := by
  induction ts with
  | nil => rfl
  | cons t ts ih =>
    cases ht : isWhite t with
    | true =>
      have hskip : skipWhite (t :: ts) = skipWhite ts := List.dropWhile_cons_of_pos ht
      rw [hskip, significant_white ht, ih]
    | false =>
      have hstay : skipWhite (t :: ts) = t :: ts :=
        List.dropWhile_cons_of_neg (by simp [ht])
      rw [hstay]

/-- Behind the white space stand the significant tokens. -/
theorem skipWhite_cases (ts : List Token) :
    (skipWhite ts = [] ∧ significant ts = []) ∨
      ∃ t rest, skipWhite ts = t :: rest ∧ significant ts = t :: significant rest := by
  have hsame := significant_skipWhite ts
  cases hskip : skipWhite ts with
  | nil =>
    rw [hskip] at hsame
    exact Or.inl ⟨rfl, hsame.symm⟩
  | cons t rest =>
    have ht : isWhite t = false := by
      have hhead := List.head?_dropWhile_not isWhite ts
      have hfirst : (ts.dropWhile isWhite).head? = some t := congrArg List.head? hskip
      rw [hfirst] at hhead
      simpa using hhead
    rw [hskip, significant_cons ht] at hsame
    exact Or.inr ⟨t, rest, rfl, hsame.symm⟩

/-- The first token that means something is the first behind the white space. -/
theorem head?_significant (ts : List Token) : (significant ts).head? = (skipWhite ts).head? := by
  rcases skipWhite_cases ts with ⟨hskip, hsig⟩ | ⟨t, rest, hskip, hsig⟩
  · rw [hskip, hsig]
  · rw [hskip, hsig]
    rfl

/-- What means something behind it stands behind that white space too. -/
theorem tail_significant (ts : List Token) :
    (significant ts).tail = significant (skipWhite ts).tail := by
  rcases skipWhite_cases ts with ⟨hskip, hsig⟩ | ⟨t, rest, hskip, hsig⟩
  · rw [hskip, hsig]
    rfl
  · rw [hskip, hsig]
    rfl

/-- White space ends no string and stands for no quote, so it may stand anywhere. -/
theorem wellFormed_of_significant {ts : List Token} (h : quoting.WellFormed (significant ts)) :
    quoting.WellFormed ts := by
  induction ts with
  | nil => exact .nil
  | cons t ts ih =>
    cases t with
    | mark c =>
      cases hc : white c with
      | true =>
        rw [significant_white (t := .mark c) hc] at h
        refine .mark ?_ (ih h)
        rintro rfl
        exact absurd hc (by decide)
      | false =>
        rw [significant_cons (t := .mark c) hc] at h
        cases h with
        | mark hquote hts => exact .mark hquote (ih hts)
    | string body =>
      rw [significant_cons (t := .string body) rfl] at h
      obtain ⟨hbody, hts, hnext⟩ := h.tail_head
      -- what follows at once is white space or what follows without it
      cases ts with
      | nil => exact .last hbody
      | cons t ts =>
        cases t with
        | mark c =>
          refine .string hbody ?_ (ih hts)
          cases hc : white c with
          | true =>
            simp only [white, Bool.or_eq_true, decide_eq_true_eq] at hc
            rcases hc with ((rfl | rfl) | rfl) | rfl <;> decide
          | false =>
            rw [significant_cons (t := .mark c) hc] at hnext
            obtain hnone | ⟨c', ts', heq, hsep⟩ := hnext
            · cases hnone
            · cases heq
              exact hsep
        | string body' =>
          rw [significant_cons (t := .string body') rfl] at hnext
          obtain hnone | ⟨c', ts', heq, -⟩ := hnext
          · cases hnone
          · cases heq

/-! ## Strings are quoted rightly -/

/-- Nothing, or something that may follow a string. -/
def MayFollow (rest : List Token) : Prop := ∀ t ∈ rest.head?, ∃ c, t = .mark c ∧ quoting.separator c

/-- A structural mark may follow a string. -/
theorem MayFollow.mark {c : UInt8} (hc : quoting.separator c) (rest : List Token) :
    MayFollow (.mark c :: rest) := by
  intro t ht
  cases ht
  exact ⟨c, rfl, hc⟩

/-- So may a comma, or what comes instead of it where there is no further item. -/
theorem MayFollow.withComma {ts rest : List Token} (h : MayFollow rest) :
    MayFollow (withComma ts ++ rest) := by
  cases ts with
  | nil => exact h
  | cons t ts => exact .mark (by decide) _

/-- A comma in front of the next item is no string that could be mistaken. -/
theorem wellFormed_withComma {ts rest : List Token} (h : quoting.WellFormed (ts ++ rest)) :
    quoting.WellFormed (withComma ts ++ rest) := by
  cases ts with
  | nil => exact h
  | cons t ts => exact .mark (by decide) h

/-- A string of the grammar in front of what may follow one. -/
theorem wellFormed_string {s : Text} {rest : List Token} (h : quoting.WellFormed rest)
    (hnext : MayFollow rest) : quoting.WellFormed (.string s.body :: rest) := by
  cases rest with
  | nil => exact .last s.quoted
  | cons t rest =>
    obtain ⟨c, rfl, hc⟩ := hnext t rfl
    exact .string s.quoted hc h

/-- Scalars have no quotes, so they hide no string. -/
theorem wellFormed_marks {text : List UInt8} (hplain : ∀ c ∈ text, c ≠ 34) {rest : List Token}
    (h : quoting.WellFormed rest) : quoting.WellFormed (text.map .mark ++ rest) := by
  induction text with
  | nil => exact h
  | cons c text ih =>
    exact .mark (hplain c List.mem_cons_self) (ih fun c hc => hplain c (List.mem_cons_of_mem _ hc))

/-- **The strings of a tree are quoted rightly**, and so are those of what follows. -/
theorem Tree.wellFormed {p : Part} (t : Tree p) {rest : List Token} (h : quoting.WellFormed rest)
    (hnext : MayFollow rest) : quoting.WellFormed (t.tokens ++ rest) := by
  induction t generalizing rest with
  | scalar s =>
    exact wellFormed_marks (fun c hc => (s.plain c hc).1) h
  | string s => exact wellFormed_string h hnext
  | array items ih =>
    rw [Tree.tokens, List.cons_append, List.append_assoc]
    exact .mark (by decide) (ih (.mark (by decide) h) (.mark (by decide) _))
  | object members ih =>
    rw [Tree.tokens, List.cons_append, List.append_assoc]
    exact .mark (by decide) (ih (.mark (by decide) h) (.mark (by decide) _))
  | noItems => exact h
  | item first rest' ihfirst ihrest =>
    rw [Tree.tokens, List.append_assoc]
    exact ihfirst (wellFormed_withComma (ihrest h hnext)) hnext.withComma
  | noMembers => exact h
  | member name value rest' ihvalue ihrest =>
    rw [Tree.tokens, List.cons_append, List.cons_append, List.append_assoc]
    have hvalue := ihvalue (wellFormed_withComma (ihrest h hnext)) hnext.withComma
    exact wellFormed_string (.mark (by decide) hvalue) (.mark (by decide) _)

/-- A text of JSON is quoted rightly. -/
theorem wellFormed_of_spells {ts : List Token} {v : Value} (h : significant ts = v.tokens) :
    quoting.WellFormed ts := by
  refine wellFormed_of_significant ?_
  rw [h, ← List.append_nil v.tokens]
  exact v.wellFormed .nil fun t ht => by cases ht

/-! ## The first field of a name -/

variable {name : List UInt8}

/-- From `ts` the search comes to this field, or past all there is before `rest`. -/
def Leads (name : List UInt8) (found : Option Value) (ts rest : List Token) : Prop :=
  match found with
  | some v => ∃ more, Quoting.afterName name 58 ts = some (v.tokens ++ more)
  | none => Quoting.afterName name 58 ts = Quoting.afterName name 58 rest

/-- The search passes over marks. -/
theorem afterName_mark (c : UInt8) (ts : List Token) :
    Quoting.afterName name 58 (.mark c :: ts) = Quoting.afterName name 58 ts :=
  if_neg fun h => by cases h.1

/-- So the search from a mark leads where the search behind it does. -/
theorem Leads.mark {found : Option Value} {ts rest : List Token} (h : Leads name found ts rest)
    (c : UInt8) : Leads name found (.mark c :: ts) rest := by
  cases found with
  | some v =>
    obtain ⟨more, hmore⟩ := h
    exact ⟨more, (afterName_mark c ts).trans hmore⟩
  | none => exact (afterName_mark c ts).trans h

/-- A closing bracket behind a tree is passed over too. -/
theorem Leads.past_mark {found : Option Value} {ts rest : List Token} {c : UInt8}
    (h : Leads name found ts (.mark c :: rest)) : Leads name found ts rest := by
  cases found with
  | some v => exact h
  | none => exact h.trans (afterName_mark c rest)

/-- What is found first, or else what is found behind. -/
theorem Leads.or {found found' : Option Value} {ts mid rest : List Token}
    (h : Leads name found ts mid) (h' : Leads name found' mid rest) :
    Leads name (found.or found') ts rest := by
  cases found with
  | some v => exact h
  | none =>
    have h : Quoting.afterName name 58 ts = Quoting.afterName name 58 mid := h
    cases found' with
    | some v =>
      obtain ⟨more, hmore⟩ := h'
      exact ⟨more, h.trans hmore⟩
    | none => exact h.trans h'

/-- A string that is no name is passed over. -/
theorem Leads.string (body : List UInt8) {rest : List Token} (hrest : rest.head? ≠ some (.mark 58)) :
    Leads name none (.string body :: rest) rest :=
  if_neg fun h => hrest h.2

/-- In a scalar there is nothing to find. -/
theorem Leads.scalar (text : List UInt8) (rest : List Token) :
    Leads name none (text.map .mark ++ rest) rest := by
  induction text with
  | nil => rfl
  | cons c text ih => exact ih.mark c

/-- No colon stands between two items, so no string item is taken for a field. -/
theorem head?_withComma {ts rest : List Token} (hrest : rest.head? ≠ some (.mark 58)) :
    (withComma ts ++ rest).head? ≠ some (.mark 58) := by
  cases ts with
  | nil => exact hrest
  | cons t ts => exact fun h => by cases h

/-- The comma between two items is passed over. -/
theorem Leads.withComma {found : Option Value} {ts rest : List Token}
    (h : Leads name found (ts ++ rest) rest) : Leads name found (withComma ts ++ rest) rest := by
  cases ts with
  | nil => exact h
  | cons t ts => exact h.mark 44

/-- The first field of two lists is in the first, or else in the second. -/
theorem firstField_append {fields fields' : List (List UInt8 × Value)} :
    ((fields ++ fields').find? fun field => field.1 = name).map Prod.snd =
      ((fields.find? fun field => field.1 = name).map Prod.snd).or
        ((fields'.find? fun field => field.1 = name).map Prod.snd) := by
  rw [List.find?_append]
  cases fields.find? _ <;> rfl

/-- **The search among the tokens of a tree** comes to its first field of the name: over the
tree, one case for each rule of the grammar. -/
theorem Tree.leads {p : Part} (t : Tree p) {rest : List Token}
    (hrest : rest.head? ≠ some (.mark 58)) :
    Leads name (t.firstField name) (t.tokens ++ rest) rest := by
  induction t generalizing rest with
  | scalar s => exact Leads.scalar s.text rest
  | string s => exact Leads.string s.body hrest
  | array items ih =>
    rw [Tree.tokens, List.cons_append, List.append_assoc]
    have hclose : (Quoting.Token.mark 93 :: rest).head? ≠ some (.mark 58) := fun h => by cases h
    have hitems := ih hclose
    exact hitems.past_mark.mark 91
  | object members ih =>
    rw [Tree.tokens, List.cons_append, List.append_assoc]
    have hclose : (Quoting.Token.mark 125 :: rest).head? ≠ some (.mark 58) := fun h => by cases h
    have hmembers := ih hclose
    exact hmembers.past_mark.mark 123
  | noItems => exact rfl
  | item first rest' ihfirst ihrest =>
    rw [Tree.tokens, List.append_assoc, Tree.firstField, Tree.fields, firstField_append]
    exact (ihfirst (head?_withComma hrest)).or (ihrest hrest).withComma
  | noMembers => exact rfl
  | member field value rest' ihvalue ihrest =>
    rw [Tree.tokens, List.cons_append, List.cons_append, List.append_assoc, Tree.firstField,
      Tree.fields]
    by_cases hname : field.body = name
    · rw [List.find?_cons_of_pos (by simpa using hname)]
      refine ⟨withComma rest'.tokens ++ rest, ?_⟩
      exact if_pos ⟨congrArg Quoting.Token.string hname, rfl⟩
    · -- a field of another name: in its value, or behind it
      rw [List.find?_cons_of_neg (by simpa using hname), firstField_append]
      have hskip : Leads name none (.string field.body :: .mark 58 ::
          (value.tokens ++ (withComma rest'.tokens ++ rest)))
          (.mark 58 :: (value.tokens ++ (withComma rest'.tokens ++ rest))) :=
        if_neg fun h => hname (Quoting.Token.string.inj h.1)
      have hlater := (ihvalue (head?_withComma hrest)).or (ihrest hrest).withComma
      exact hskip.or (hlater.mark 58)

/-- The same of a whole value, with nothing behind it. -/
theorem afterName_tokens (v : Value) (name : List UInt8) :
    Leads name (v.firstField name) v.tokens [] := by
  have h : Leads name (v.firstField name) (v.tokens ++ []) [] := v.leads fun h => by cases h
  rwa [List.append_nil] at h

/-- A string before a colon is the name of a field. -/
theorem mem_fields_of_infix {v : Value} {body : List UInt8}
    (h : [.string body, .mark 58] <:+: v.tokens) : ∃ value, (body, value) ∈ v.fields := by
  have hleads := afterName_tokens v body
  cases hfound : v.firstField body with
  | none =>
    rw [hfound] at hleads
    exact absurd hleads (Quoting.afterName_of_infix h)
  | some value =>
    obtain ⟨field, hfield, rfl⟩ := Option.map_eq_some_iff.mp hfound
    refine ⟨field.2, ?_⟩
    have hname : field.1 = body := by simpa using List.find?_some hfield
    rw [← hname]
    exact List.mem_of_find?_eq_some hfield

/-- The name of a field is quoted rightly. -/
theorem Tree.fields_quoted {p : Part} (t : Tree p) : ∀ field ∈ t.fields, quoting.Body field.1 := by
  induction t with
  | scalar s => exact fun field hfield => absurd hfield List.not_mem_nil
  | string s => exact fun field hfield => absurd hfield List.not_mem_nil
  | array items ih => exact ih
  | object members ih => exact ih
  | noItems => exact fun field hfield => absurd hfield List.not_mem_nil
  | item first rest ihfirst ihrest =>
    intro field hfield
    exact (List.mem_append.mp hfield).elim (ihfirst field) (ihrest field)
  | noMembers => exact fun field hfield => absurd hfield List.not_mem_nil
  | member name value rest ihvalue ihrest =>
    intro field hfield
    rcases List.mem_cons.mp hfield with rfl | hfield
    · exact name.quoted
    · exact (List.mem_append.mp hfield).elim (ihvalue field) (ihrest field)

/-! ## Arrays -/

/-- A scalar does not begin with a structural byte. -/
theorem Scalar.head {s : Scalar} {c : UInt8} (hc : structural c = true) (more : List Token) :
    ((s.text.map .mark : List Token) ++ more).head? ≠ some (.mark c) := by
  obtain ⟨text, hne, hplain⟩ := s
  cases text with
  | nil => exact absurd rfl hne
  | cons c' text =>
    intro h
    cases h
    rw [(hplain _ List.mem_cons_self).2.2] at hc
    cases hc

/-- A value that begins with `[` is an array. -/
theorem head?_array (v : Value) (more : List Token) :
    (v.tokens ++ more).head? = some (.mark 91) ↔ ∃ items, v = .array items := by
  cases v with
  | scalar s =>
    refine iff_of_false (s.head (c := 91) (by decide) more) ?_
    rintro ⟨items, h⟩
    cases h
  | string s => exact iff_of_false (fun h => by cases h) fun ⟨_, h⟩ => by cases h
  | array items => exact iff_of_true rfl ⟨items, rfl⟩
  | object members => exact iff_of_false (fun h => by cases h) fun ⟨_, h⟩ => by cases h

/-- An array that is closed at once has no item. -/
theorem head?_items (items : Tree .items) (more : List Token) :
    (items.tokens ++ .mark 93 :: more).head? = some (.mark 93) ↔ items = .noItems := by
  cases items with
  | noItems => exact iff_of_true rfl rfl
  | item first rest =>
    refine iff_of_false (fun h => ?_) fun h => by cases h
    rw [Tree.tokens, List.append_assoc] at h
    cases first with
    | scalar s => exact s.head (c := 93) (by decide) _ h
    | string s => cases h
    | array items => cases h
    | object members => cases h

end Nyet.Lib.Json
