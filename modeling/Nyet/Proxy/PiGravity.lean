import Nyet.Blocklist.Framing
import Nyet.Lib.Json
import Nyet.Packet.Labels
import Nyet.Proxy.LogLine

/-!
# Asking the Pi (`query_pi_gravity`)

What a gravity thread asks for and what it makes of the reply. The domain becomes one segment of
the request path, percent-encoded where a byte could restructure the path, and can be read back
from it (`gravity_path_exact`). The reply is not parsed: `json_array_nonempty` searches it for
the name of an array. It finds the first field of that name, and no string in the reply can pass
for one (`gravity_reply_exact`).

The exchange itself is WinHTTP's: all that comes back from it is the first part of the reply, or
nothing. What is sent is ASCII, so the wide characters are the bytes.
-/

namespace Nyet

/-! ## The request -/

/-- `sizeof(encoded_domain)` -/
def encodedDomainSize : Nat := maxDomainLen * 3

/-- `/`, `?`, `#`, `%`, `\`, and what is no printable ASCII. -/
def restructuresPath (c : UInt8) : Bool :=
  c = 47 || c = 63 || c = 35 || c = 37 || c = 92 || c < 0x20 || 0x7E < c

/-- `%%%02X` -/
def percentHex (c : UInt8) : CStr := [37, hexDigit (c / 16), hexDigit (c % 16)]

/-- The loop over the domain, with what is in `encoded_domain` so far. -/
def encodeLoop (out : CStr) : CStr → CStr
  | [] => out
  | c :: rest =>
    if out.length + 4 < encodedDomainSize then
      encodeLoop (out ++ if restructuresPath c then percentHex c else [c]) rest
    else out

/-- `path`, `_snwprintf_s` into `MAX_DOMAIN_LEN * 3 + 32` characters. -/
def gravityPath (domain : CStr) : CStr :=
  (cstr "/api/search/" ++ encodeLoop [] domain).take (maxDomainLen * 3 + 32 - 1)

/-! ## The reply -/

/-- `strstr`: the haystack from the first occurrence on. -/
def strstr (haystack needle : CStr) : Option CStr := Lib.Quoting.search needle haystack

/-- `while (*pos == ' ') pos++` -/
def skipSpaces (pos : CStr) : CStr := pos.dropWhile fun c => c = 32

/-- `json_array_nonempty` -/
def jsonArrayNonempty (json key : CStr) : Bool :=
  let needle := (snprintf 32 (34 :: (key ++ [34, 58]))).1
  match strstr json needle with
  | none => false
  | some found =>
    let pos := skipSpaces (found.drop needle.length)
    if pos.head? ≠ some 91 then false
    else (skipSpaces pos.tail).head? ≠ some 93

/-- `sizeof(buffer) - 1` -/
def replyBufferSize : Nat := 4095

/-- `query_pi_gravity`, by what `WinHttpReadData` brings; `none` if it, or a call before it,
fails. -/
def queryPiGravity (received : Option CStr) : GravityResult :=
  match received with
  | none => .unreachable
  | some bytes =>
    let buffer := asCStr (bytes.take replyBufferSize)
    if jsonArrayNonempty buffer (cstr "domains") || jsonArrayNonempty buffer (cstr "gravity") then
      .blocked
    else .clean

/-! ## The path -/

/-- The value of a hexadecimal digit. -/
def hexValue (c : UInt8) : Option UInt8 :=
  if 48 ≤ c ∧ c ≤ 57 then some (c - 48)
  else if 65 ≤ c ∧ c ≤ 70 then some (c - 55)
  else none

/-- What a segment of a path stands for. -/
def percentDecode : CStr → Option CStr
  | [] => some []
  | c :: rest =>
    if c = 37 then
      match rest with
      | high :: low :: rest =>
        match hexValue high, hexValue low with
        | some h, some l => (percentDecode rest).map fun bytes => (h * 16 + l) :: bytes
        | _, _ => none
      | _ => none
    else (percentDecode rest).map fun bytes => c :: bytes

/-- A byte as it stands in the path. -/
def encodeByte (c : UInt8) : CStr := if restructuresPath c then percentHex c else [c]

/-- `%%%02X` is three characters, hence the factor in `sizeof(encoded_domain)`. -/
theorem encodeByte_length (c : UInt8) : (encodeByte c).length ≤ 3 := by
  rw [encodeByte]
  split
  · exact Nat.le_refl _
  · exact Nat.le_of_ble_eq_true rfl

/-- The check for room in the loop never stops it as long as three characters a byte would fit; by
induction on what is left of the domain. -/
theorem encodeLoop_eq {domain : CStr} : ∀ {out : CStr},
    out.length + 3 * domain.length + 1 < encodedDomainSize →
      encodeLoop out domain = out ++ domain.flatMap encodeByte := by
  induction domain with
  | nil =>
    intro out hfits
    exact (List.append_nil out).symm
  | cons c rest ih =>
    intro out hfits
    rw [List.length_cons] at hfits
    have hlength := encodeByte_length c
    have hroom : (out ++ encodeByte c).length + 3 * rest.length + 1 < encodedDomainSize := by
      rw [List.length_append]
      omega
    rw [encodeLoop, if_pos (by omega), List.flatMap_cons, ← List.append_assoc, ← ih hroom, encodeByte]

/-- The same factor for the whole domain. -/
theorem length_flatMap_encodeByte (domain : CStr) :
    (domain.flatMap encodeByte).length ≤ 3 * domain.length := by
  induction domain with
  | nil => exact Nat.le_refl _
  | cons c rest ih =>
    have hlength := encodeByte_length c
    rw [List.flatMap_cons, List.length_append, List.length_cons]
    omega

/-- The path of a domain that fits its buffer is not truncated. -/
theorem gravityPath_eq {domain : CStr} (hlen : domain.length < maxDomainLen) :
    gravityPath domain = cstr "/api/search/" ++ domain.flatMap encodeByte := by
  rw [maxDomainLen] at hlen
  have hloop : encodeLoop [] domain = domain.flatMap encodeByte := by
    rw [encodeLoop_eq (by rw [encodedDomainSize, maxDomainLen, List.length_nil]; omega)]
    rfl
  have hprefix : (cstr "/api/search/").length = 12 := by decide
  have hlength := length_flatMap_encodeByte domain
  rw [gravityPath, hloop, List.take_of_length_le]
  rw [List.length_append, hprefix, maxDomainLen]
  omega

/-- The two digits of a byte are read back as its halves. -/
theorem hexValue_hexDigit : ∀ c : UInt8, hexValue (hexDigit (c / 16)) = some (c / 16) ∧
    hexValue (hexDigit (c % 16)) = some (c % 16) ∧ c / 16 * 16 + c % 16 = c :=
  forall_byte (by decide +kernel)

/-- A byte is read back, whatever follows. -/
theorem percentDecode_encodeByte (c : UInt8) (rest : CStr) :
    percentDecode (encodeByte c ++ rest) = (percentDecode rest).map fun bytes => c :: bytes := by
  rw [encodeByte]
  by_cases hc : restructuresPath c = true
  · obtain ⟨hhigh, hlow, hsum⟩ := hexValue_hexDigit c
    rw [if_pos hc]
    show percentDecode (37 :: hexDigit (c / 16) :: hexDigit (c % 16) :: rest) = _
    rw [percentDecode, if_pos rfl, hhigh, hlow]
    dsimp only
    rw [hsum]
  · have hpercent : c ≠ 37 := by
      rintro rfl
      exact hc (by decide)
    rw [if_neg hc]
    show percentDecode (c :: rest) = _
    rw [percentDecode.eq_def]
    exact if_neg hpercent

/-- What is encoded is decoded, byte for byte: percent signs are themselves encoded, so none is
mistaken for an escape. -/
theorem percentDecode_encoded (domain : CStr) :
    percentDecode (domain.flatMap encodeByte) = some domain := by
  induction domain with
  | nil => rfl
  | cons c rest ih =>
    rw [List.flatMap_cons, percentDecode_encodeByte, ih]
    rfl

/-- A byte that is printable, ends no segment and starts no query. -/
def safeInSegment (b : UInt8) : Bool := isPrint b && b != 47 && b != 63 && b != 35 && b != 92

/-- An escape is made of characters that need none. -/
theorem percentHex_safe : ∀ c : UInt8, (percentHex c).all safeInSegment = true :=
  forall_byte (by decide +kernel)

/-- Nor does a byte that is left as it is. -/
theorem plain_safe {c : UInt8} (h : restructuresPath c = false) : safeInSegment c = true := by
  simp only [restructuresPath] at h
  simp only [safeInSegment, isPrint]
  grind

/-- Every byte of the path segment is safe, encoded or not. -/
theorem encodeByte_safe (c : UInt8) : ∀ b ∈ encodeByte c, safeInSegment b = true := by
  rw [encodeByte]
  by_cases hc : restructuresPath c = true
  · rw [if_pos hc]
    exact List.all_eq_true.mp (percentHex_safe c)
  · rw [if_neg hc]
    intro b hb
    rw [List.mem_singleton.mp hb]
    exact plain_safe (Bool.not_eq_true _ ▸ hc)

/-- The bytes of a name on the wire are letters, digits, hyphens and dots, none of which is
touched. -/
theorem restructuresPath_name {c : UInt8} (h : isNameByte c = true ∨ c = dot) :
    restructuresPath c = false := by
  simp only [isNameByte, dot] at h
  simp only [restructuresPath]
  grind

/-- **The path of a request** for any domain that fits its buffer, whatever its bytes: it is
whole, and the domain is one segment of it, of printable bytes that end no segment and start no
query, and can be read back. For the domain of a question it is the domain as it is, and no dot
segment. -/
theorem gravity_path_exact {domain : CStr} (hlen : domain.length < maxDomainLen) :
    ∃ segment, gravityPath domain = cstr "/api/search/" ++ segment ∧
      percentDecode segment = some domain ∧
      (∀ b ∈ segment, safeInSegment b = true) ∧
      (WireName maxDomainLen domain →
        segment = domain ∧ segment ≠ [dot] ∧ segment ≠ [dot, dot]) := by
  refine ⟨domain.flatMap encodeByte, gravityPath_eq hlen, percentDecode_encoded domain,
    fun b hb => ?_, fun hname => ?_⟩
  · obtain ⟨c, -, hb⟩ := List.mem_flatMap.mp hb
    exact encodeByte_safe c b hb
  · have hself : domain.flatMap encodeByte = domain := by
      have hbyte : ∀ c ∈ domain, encodeByte c = [c] := by
        intro c hc
        rw [encodeByte, restructuresPath_name (hname.bytes c hc), if_neg Bool.false_ne_true]
      rw [List.flatMap_congr hbyte, List.flatMap_singleton']
    have hfirst : ∀ rest, domain ≠ dot :: rest := by
      rintro rest rfl
      obtain ⟨c, rest', heq, hc⟩ := hname.label (List.cons_ne_nil _ _)
      obtain rfl := (List.cons.inj heq).1
      cases hc
    rw [hself]
    exact ⟨rfl, hfirst [], hfirst [dot]⟩

/-- Dots and slashes that would climb out of the path are sent as escapes. -/
theorem gravity_path_exact_traversal : ∃ segment,
    gravityPath (cstr "../../auth?x") = cstr "/api/search/" ++ segment ∧ (47 : UInt8) ∉ segment := by
  have hlen : (cstr "../../auth?x").length < maxDomainLen := by decide
  obtain ⟨segment, hpath, -, hsafe, -⟩ := gravity_path_exact hlen
  exact ⟨segment, hpath, fun hmem => absurd (hsafe 47 hmem) (by decide)⟩

/-! ## What the reply says -/

abbrev jsonQuoting := Lib.Json.quoting

abbrev JsonToken := Lib.Json.Token

/-- **The first field of this name is an array with something in it.** -/
def HoldsItems (name : CStr) (reply : Lib.Json.Value) : Prop :=
  ∃ first rest, reply.firstField name = some (.array (.item first rest))

/-- The white space at the front is spaces only. -/
def SpacesOnly (ts : List JsonToken) : Prop := ∀ t ∈ ts.takeWhile Lib.Json.isWhite, t = .mark 32

/-- The white space of a field that the code can read, by what stands behind its name: none before
the colon; behind that, and behind a bracket there, spaces only. -/
structure Readable (behind : List JsonToken) : Prop where
  colon : behind.head? = some (.mark 58)
  value : SpacesOnly behind.tail
  items : (Lib.Json.skipWhite behind.tail).head? = some (.mark 91) →
    SpacesOnly (Lib.Json.skipWhite behind.tail).tail

/-- The code can read every field of this name. -/
def ReadableFields (name : CStr) (ts : List JsonToken) : Prop :=
  ∀ behind, .string name :: behind <:+ ts →
    (Lib.Json.skipWhite behind).head? = some (.mark 58) → Readable behind

/-- Tokens from the first that is no space on. -/
def skipSpaceTokens (ts : List JsonToken) : List JsonToken := ts.dropWhile fun t => t = .mark 32

/-- Skipping spaces in the text of a reply is skipping them among its tokens: no string begins with
one. -/
theorem skipSpaces_render (ts : List JsonToken) :
    skipSpaces (jsonQuoting.render ts) = jsonQuoting.render (skipSpaceTokens ts) :=
  Lib.Quoting.dropWhile_render (by decide) ts

/-- The first byte of the text is a mark exactly where the first token is that mark. -/
theorem head?_renderJson {c : UInt8} (hc : c ≠ 34) (ts : List JsonToken) :
    (jsonQuoting.render ts).head? = some c ↔ ts.head? = some (.mark c) :=
  Lib.Quoting.head?_render (Q := jsonQuoting) hc ts

/-- The needle fits its buffer. -/
theorem snprintf_needle {name : CStr} (hshort : name.length ≤ 28) :
    (snprintf 32 (34 :: (name ++ [34, 58]))).1 = jsonQuoting.pattern name 58 := by
  refine List.take_of_length_le ?_
  simp
  omega

/-- **What `json_array_nonempty` looks at**, where no field name mimics the one it looks for: the
tokens behind the first string that is the name and stands before a colon. -/
theorem jsonArrayNonempty_render {name : CStr} (hname : jsonQuoting.Name name)
    (hshort : name.length ≤ 28) {ts : List JsonToken} (h : jsonQuoting.WellFormed ts)
    (hmimic : ¬ jsonQuoting.Mimicked name 58 ts) :
    jsonArrayNonempty (jsonQuoting.render ts) name = true ↔
      ∃ value, Lib.Quoting.afterName name 58 ts = some value ∧
        (skipSpaceTokens value).head? = some (.mark 91) ∧
        (skipSpaceTokens (skipSpaceTokens value).tail).head? ≠ some (.mark 93) := by
  rw [jsonArrayNonempty, snprintf_needle hshort, strstr]
  dsimp only
  rw [Lib.Quoting.search_render hname (by decide) h hmimic]
  cases hafter : Lib.Quoting.afterName name 58 ts with
  | none => exact iff_of_false Bool.false_ne_true fun ⟨_, h, _⟩ => by cases h
  | some value =>
    dsimp only [Option.map_some]
    rw [List.drop_left, skipSpaces_render]
    -- the byte behind the name decides, and then the byte behind the bracket
    by_cases hopen : (skipSpaceTokens value).head? = some (.mark 91)
    · obtain ⟨inner, hinner⟩ := List.head?_eq_some_iff.mp hopen
      have htail : (jsonQuoting.render (skipSpaceTokens value)).tail = jsonQuoting.render inner := by
        rw [hinner]
        rfl
      have hhead := (head?_renderJson (by decide) _).mpr hopen
      rw [if_neg (not_not.mpr hhead), htail, skipSpaces_render, decide_eq_true_eq, ne_eq,
        head?_renderJson (by decide)]
      constructor
      · intro hitems
        refine ⟨value, rfl, hopen, ?_⟩
        rw [hinner]
        exact hitems
      · rintro ⟨value', hvalue, -, hitems⟩
        cases hvalue
        rw [hinner] at hitems
        exact hitems
    · rw [if_pos (mt (head?_renderJson (by decide) _).mp hopen)]
      refine iff_of_false Bool.false_ne_true ?_
      rintro ⟨value', hvalue, hopen', -⟩
      cases hvalue
      exact hopen hopen'

/-! ### The white space the code can read -/

/-- Where white space is spaces only, the loop skips all of it. -/
theorem SpacesOnly.skip {ts : List JsonToken} (h : SpacesOnly ts) :
    skipSpaceTokens ts = Lib.Json.skipWhite ts := by
  induction ts with
  | nil => rfl
  | cons t ts ih =>
    rw [skipSpaceTokens, Lib.Json.skipWhite, List.dropWhile_cons, List.dropWhile_cons]
    rw [SpacesOnly, List.takeWhile_cons] at h
    cases ht : Lib.Json.isWhite t with
    | true =>
      rw [ht, if_pos rfl] at h
      obtain rfl := h t List.mem_cons_self
      exact ih fun t' ht' => h t' (List.mem_cons_of_mem _ ht')
    | false =>
      have hspace : t ≠ .mark 32 := by
        rintro rfl
        exact absurd ht (by decide)
      rw [if_neg (by simpa using hspace), if_neg Bool.false_ne_true]

/-- So it comes to the first token that means something. -/
theorem SpacesOnly.head?_skip {ts : List JsonToken} (h : SpacesOnly ts) :
    (skipSpaceTokens ts).head? = (Lib.Json.significant ts).head? := by
  rw [h.skip, Lib.Json.head?_significant]

/-- A reply without white space is read. -/
theorem ReadableFields.of_compact {ts : List JsonToken} (h : ∀ t ∈ ts, Lib.Json.isWhite t = false)
    (name : CStr) : ReadableFields name ts := by
  have hspaces : ∀ {ts' : List JsonToken}, ts' <:+ ts → SpacesOnly ts' := by
    intro ts' hsuffix t ht
    have hwhite := List.mem_takeWhile_imp ht
    rw [h t (hsuffix.subset (List.takeWhile_subset _ ht))] at hwhite
    cases hwhite
  have hskip : ∀ {ts' : List JsonToken}, ts' <:+ ts → Lib.Json.skipWhite ts' = ts' := by
    intro ts' hsuffix
    cases ts' with
    | nil => rfl
    | cons t rest =>
      refine List.dropWhile_cons_of_neg ?_
      rw [h t (hsuffix.subset List.mem_cons_self)]
      exact Bool.false_ne_true
  intro behind hin hcolon
  have hbehind := (List.suffix_cons _ behind).trans hin
  have hvalue := (List.tail_suffix behind).trans hbehind
  rw [hskip hbehind] at hcolon
  refine ⟨hcolon, hspaces hvalue, fun _ => ?_⟩
  rw [hskip hvalue]
  exact hspaces ((List.tail_suffix _).trans hvalue)

/-- **Without the white space** the search comes to the same place. -/
theorem ReadableFields.afterName {name : CStr} {ts : List JsonToken} (h : ReadableFields name ts) :
    Lib.Quoting.afterName name 58 (Lib.Json.significant ts) =
      (Lib.Quoting.afterName name 58 ts).map Lib.Json.significant := by
  induction ts with
  | nil => rfl
  | cons t ts ih =>
    have ih := ih fun behind hin => h behind (hin.trans (List.suffix_cons _ _))
    cases ht : Lib.Json.isWhite t with
    | true =>
      have hmark : ¬ (t = .string name ∧ ts.head? = some (.mark 58)) := by
        rintro ⟨rfl, -⟩
        cases ht
      rw [Lib.Json.significant_white ht, ih, Lib.Quoting.afterName, if_neg hmark]
    | false =>
      rw [Lib.Json.significant_cons ht, Lib.Quoting.afterName, Lib.Quoting.afterName,
        Lib.Json.head?_significant]
      -- at a field the code reads no white space stands before the colon, so both see it at once
      by_cases hfield : t = .string name ∧ (Lib.Json.skipWhite ts).head? = some (.mark 58)
      · obtain ⟨rfl, hcolon⟩ := hfield
        have hread := (h ts List.suffix_rfl hcolon).colon
        obtain ⟨value, rfl⟩ := List.head?_eq_some_iff.mp hread
        rw [if_pos ⟨rfl, hcolon⟩, if_pos ⟨rfl, rfl⟩]
        exact congrArg some (congrArg List.tail (Lib.Json.significant_cons rfl value))
      · have hnot : ¬ (t = .string name ∧ ts.head? = some (.mark 58)) := by
          rintro ⟨rfl, hcolon⟩
          obtain ⟨value, rfl⟩ := List.head?_eq_some_iff.mp hcolon
          exact hfield ⟨rfl, rfl⟩
        rw [if_neg hfield, if_neg hnot, ih]

/-- What the search comes to stands behind the name and its colon. -/
theorem suffix_of_afterName {name : CStr} {ts value : List JsonToken}
    (h : Lib.Quoting.afterName name 58 ts = some value) :
    .string name :: .mark 58 :: value <:+ ts := by
  induction ts with
  | nil => cases h
  | cons t ts ih =>
    rw [Lib.Quoting.afterName] at h
    split at h
    · next hat =>
      obtain ⟨rfl, hcolon⟩ := hat
      obtain ⟨value', rfl⟩ := List.head?_eq_some_iff.mp hcolon
      cases h
      exact List.suffix_rfl
    · exact (ih h).trans (List.suffix_cons _ _)

/-- **What the search comes to is the field's value**: where the code can read the white space,
the brackets it looks for are there exactly if the value is an array with something in it. -/
theorem holdsItems_iff {name : CStr} {ts : List JsonToken} {reply : Lib.Json.Value}
    (htext : Lib.Json.significant ts = reply.tokens) (hread : ReadableFields name ts) :
    (∃ value, Lib.Quoting.afterName name 58 ts = some value ∧
        (skipSpaceTokens value).head? = some (.mark 91) ∧
        (skipSpaceTokens (skipSpaceTokens value).tail).head? ≠ some (.mark 93)) ↔
      HoldsItems name reply := by
  have hsearch := hread.afterName
  rw [htext] at hsearch
  have hleads := Lib.Json.afterName_tokens reply name
  rw [HoldsItems]
  cases hfound : reply.firstField name with
  | none =>
    rw [hfound] at hleads
    have hnone : Lib.Quoting.afterName name 58 ts = none :=
      Option.map_eq_none_iff.mp (hsearch.symm.trans hleads)
    rw [hnone]
    exact iff_of_false (fun ⟨_, h, _⟩ => by cases h) fun ⟨_, _, h⟩ => by cases h
  | some field =>
    rw [hfound] at hleads
    obtain ⟨more, hmore⟩ := hleads
    obtain ⟨value, hvalue, hfield⟩ := Option.map_eq_some_iff.mp (hsearch.symm.trans hmore)
    have hlayout := hread (.mark 58 :: value) (suffix_of_afterName hvalue) rfl
    have hspaces : SpacesOnly value := hlayout.value
    have hopen : (skipSpaceTokens value).head? = some (.mark 91) ↔ ∃ items, field = .array items := by
      rw [hspaces.head?_skip, hfield, Lib.Json.head?_array]
    rw [hvalue]
    -- a bracket opens the value exactly if it is an array; the next token closes it if it is empty
    by_cases harray : ∃ items, field = .array items
    · obtain ⟨items, rfl⟩ := harray
      have hinner : SpacesOnly (Lib.Json.skipWhite value).tail := by
        refine hlayout.items ?_
        show (Lib.Json.skipWhite value).head? = _
        rw [← hspaces.skip]
        exact hopen.mpr ⟨items, rfl⟩
      have htail : Lib.Json.significant (Lib.Json.skipWhite value).tail =
          items.tokens ++ .mark 93 :: more := by
        rw [← Lib.Json.tail_significant, hfield, Lib.Json.Tree.tokens, List.cons_append,
          List.tail_cons, List.append_assoc, List.singleton_append]
      have hclosed : (skipSpaceTokens (skipSpaceTokens value).tail).head? = some (.mark 93) ↔
          items = .noItems := by
        rw [hspaces.skip, hinner.head?_skip, htail, Lib.Json.head?_items]
      constructor
      · rintro ⟨value', heq, -, hitem⟩
        cases heq
        cases items with
        | noItems => exact absurd (hclosed.mpr rfl) hitem
        | item first rest => exact ⟨first, rest, rfl⟩
      · rintro ⟨first, rest, heq⟩
        cases heq
        refine ⟨value, rfl, hopen.mpr ⟨_, rfl⟩, fun h => ?_⟩
        cases hclosed.mp h
    · refine iff_of_false ?_ ?_
      · rintro ⟨value', heq, hbracket, -⟩
        cases heq
        exact harray (hopen.mp hbracket)
      · rintro ⟨first, rest, heq⟩
        exact harray ⟨_, Option.some.inj heq⟩

/-- A text without quotes and backslashes, by evaluation. -/
theorem plain_of_all {text : CStr} (h : text.all (fun c => c != 34 && c != 92) = true) :
    ∀ c ∈ text, c ≠ 34 ∧ c ≠ 92 := by
  intro c hc
  simpa using List.all_eq_true.mp h c hc

/-- `domains` can be searched for: its first letter does not occur in it again. -/
theorem name_domains : jsonQuoting.Name (cstr "domains") where
  plain := plain_of_all (by decide)
  head := ⟨100, cstr "omains", by decide, show (100 : UInt8) ∉ _ by decide⟩

/-- So can `gravity`. -/
theorem name_gravity : jsonQuoting.Name (cstr "gravity") where
  plain := plain_of_all (by decide)
  head := ⟨103, cstr "ravity", by decide, show (103 : UInt8) ∉ _ by decide⟩

/-- **What the reply says**: of any JSON reply that is read whole, with no escapes in its field
names and the white space that the code can read at its `domains` and `gravity` fields, the code
makes BLOCKED exactly where the first field of one of these names is an array with something in
it, and clean of any other. What its strings say makes no difference. -/
theorem gravity_reply_exact {reply : Lib.Json.Value} {ts : List JsonToken}
    (htext : Lib.Json.significant ts = reply.tokens) (hdomains : ReadableFields (cstr "domains") ts)
    (hgravity : ReadableFields (cstr "gravity") ts) (hnul : 0 ∉ jsonQuoting.render ts)
    (hwhole : (jsonQuoting.render ts).length ≤ replyBufferSize)
    (hnames : ∀ field ∈ reply.fields, (92 : UInt8) ∉ field.1) :
    let result := queryPiGravity (some (jsonQuoting.render ts))
    (result = .blocked ↔ HoldsItems (cstr "domains") reply ∨ HoldsItems (cstr "gravity") reply) ∧
      (result = .clean ↔
        ¬ (HoldsItems (cstr "domains") reply ∨ HoldsItems (cstr "gravity") reply)) := by
  have hquoted := Lib.Json.wellFormed_of_spells htext
  have hmimic : ∀ name, ¬ jsonQuoting.Mimicked name 58 ts := by
    rintro name ⟨body, hin, hend⟩
    -- the string is the name of a field, and a name without escapes has no quote
    have hfield : [.string body, .mark 58] <:+: reply.tokens := by
      rw [← htext]
      exact hin.filter fun t => !Lib.Json.isWhite t
    obtain ⟨value, hmem⟩ := Lib.Json.mem_fields_of_infix hfield
    have hquote := (reply.fields_quoted _ hmem).quote_not_mem (hnames _ hmem)
    exact hquote (hend.subset List.mem_cons_self)
  -- each search finds the first field of its name, and what it makes of it is what the tree says
  have hd := (jsonArrayNonempty_render name_domains (by decide) hquoted (hmimic _)).trans
    (holdsItems_iff htext hdomains)
  have hg := (jsonArrayNonempty_render name_gravity (by decide) hquoted (hmimic _)).trans
    (holdsItems_iff htext hgravity)
  rw [queryPiGravity]
  dsimp only
  rw [asCStr_take hnul, List.take_of_length_le hwhole, ← hd, ← hg, ← Bool.or_eq_true]
  split
  · next hblocked => exact ⟨iff_of_true rfl hblocked, iff_of_false (by decide) (not_not.mpr hblocked)⟩
  · next hclean => exact ⟨iff_of_false (by decide) hclean, iff_of_true rfl hclean⟩

/-- A text with nothing to escape. -/
def plainText (body : CStr) (h : body.all (fun c => c != 34 && c != 92) = true) : Lib.Json.Text :=
  ⟨body, .of_plain (plain_of_all h)⟩

/-- `\"gravity\":[1`, as the text of a string. -/
def spoofedDomain : Lib.Json.Text where
  body := 92 :: 34 :: (cstr "gravity" ++ [92, 34, 58, 91, 49])
  quoted := by
    have hplain : ∀ c ∈ ([58, 91, 49] : CStr), c ≠ 34 ∧ c ≠ 92 := plain_of_all (by decide)
    have hrest : jsonQuoting.Body [92, 34, 58, 91, 49] := .escaped (.of_plain hplain)
    have hname : jsonQuoting.Body (cstr "gravity") := .of_plain (plain_of_all (by decide))
    exact .escaped (hname.append hrest)

/-- A reply that has nothing, for a domain that would pass for a field if it were not escaped. -/
def spoofedReply : Lib.Json.Value :=
  .object (.member (plainText (cstr "domains") (by decide)) (.array .noItems)
    (.member (plainText (cstr "domain") (by decide)) (.string spoofedDomain) .noMembers))

/-- The reply is clean: its one array is empty, and the string that spells another is not mistaken
for it. -/
theorem gravity_reply_exact_spoofed :
    queryPiGravity (some (jsonQuoting.render spoofedReply.tokens)) = .clean := by
  have hcompact : ∀ t ∈ spoofedReply.tokens, Lib.Json.isWhite t = false := by decide +kernel
  have hsame : Lib.Json.significant spoofedReply.tokens = spoofedReply.tokens :=
    List.filter_eq_self.mpr fun t ht => by rw [hcompact t ht]; rfl
  refine (gravity_reply_exact hsame (.of_compact hcompact _) (.of_compact hcompact _)
    (by decide +kernel) (by decide +kernel) ?_).2.mpr ?_
  · intro field hfield
    rcases List.mem_cons.mp hfield with rfl | hfield
    · exact show (92 : UInt8) ∉ cstr "domains" by decide
    · obtain rfl := List.mem_singleton.mp hfield
      exact show (92 : UInt8) ∉ cstr "domain" by decide
  · -- the array of the one field is empty, the other name stands in no field
    rintro (⟨first, rest, h⟩ | ⟨first, rest, h⟩)
    · cases h
    · cases h

/-! ## A reply that is cut short -/

/-- The reply of the Pi: its two arrays, and what follows them. -/
def documentedReply (domains gravity more : List JsonToken) : List JsonToken :=
  [.mark 123, .string (cstr "search"), .mark 58, .mark 123, .string (cstr "domains"), .mark 58,
    .mark 91] ++ domains ++ [.mark 93, .mark 44, .string (cstr "gravity"), .mark 58, .mark 91] ++
    gravity ++ [.mark 93] ++ more

/-- What an array holds does not begin with a space or a bracket that closes it. -/
def Items (ts : List JsonToken) : Prop := ∀ t ∈ ts.head?, t ≠ .mark 32 ∧ t ≠ .mark 93

/-- The byte behind the bracket is no space, and it closes the array exactly if there is nothing in
it. -/
theorem Items.render {ts : List JsonToken} (h : Items ts) (more : List JsonToken) :
    ∃ c bytes, jsonQuoting.render (ts ++ .mark 93 :: more) = c :: bytes ∧ c ≠ 32 ∧
      (c = 93 ↔ ts = []) := by
  cases ts with
  | nil => exact ⟨93, jsonQuoting.render more, rfl, by decide, iff_of_true rfl rfl⟩
  | cons t ts =>
    obtain ⟨hspace, hclose⟩ := h t rfl
    cases t with
    | mark c =>
      refine ⟨c, jsonQuoting.render (ts ++ .mark 93 :: more), rfl, fun hc => ?_, ?_⟩
      · exact hspace (congrArg _ hc)
      · exact iff_of_false (fun hc => hclose (congrArg _ hc)) (List.cons_ne_nil _ _)
    | string body =>
      exact ⟨34, _, rfl, by decide, iff_of_false (by decide) (List.cons_ne_nil _ _)⟩

/-- The bytes up to the first array. -/
def upToDomains : CStr := cstr "\x7b\"search\":\x7b\"domains\":["

/-- The bytes from the end of an empty first array to the second. -/
def upToGravity : CStr := cstr "],\"gravity\":["

/-- The first name stands at a fixed place of the text. -/
theorem strstr_domains (rest : CStr) :
    strstr (upToDomains ++ rest) (jsonQuoting.pattern (cstr "domains") 58) =
      some (jsonQuoting.pattern (cstr "domains") 58 ++ 91 :: rest) := rfl

/-- So does the second where the first array is empty. -/
theorem strstr_gravity (rest : CStr) :
    strstr (upToDomains ++ (upToGravity ++ rest)) (jsonQuoting.pattern (cstr "gravity") 58) =
      some (jsonQuoting.pattern (cstr "gravity") 58 ++ 91 :: rest) := rfl

/-- Where the array stands at once, the byte behind its bracket decides. -/
theorem jsonArrayNonempty_of_found {text name : CStr} (hshort : name.length ≤ 28) {c : UInt8}
    {bytes : CStr} (hfound : strstr text (jsonQuoting.pattern name 58) =
      some (jsonQuoting.pattern name 58 ++ 91 :: c :: bytes)) (hc : c ≠ 32) :
    jsonArrayNonempty text name = true ↔ c ≠ 93 := by
  rw [jsonArrayNonempty, snprintf_needle hshort, hfound]
  dsimp only
  have hskip : skipSpaces (91 :: c :: bytes) = 91 :: c :: bytes :=
    List.dropWhile_cons_of_neg (by decide)
  have hinner : skipSpaces (c :: bytes) = c :: bytes :=
    List.dropWhile_cons_of_neg (by simpa using hc)
  rw [List.drop_left, hskip, List.head?_cons, if_neg (not_not.mpr rfl), List.tail_cons, hinner,
    decide_eq_true_eq, List.head?_cons, ne_eq, Option.some_inj]

/-- What has no NUL is read as it is, as far as the buffer goes. -/
theorem queryPiGravity_blocked {bytes : CStr} (hnul : 0 ∉ bytes) (n : Nat) :
    queryPiGravity (some (bytes.take n)) = .blocked ↔
      jsonArrayNonempty (bytes.take (min replyBufferSize n)) (cstr "domains") = true ∨
        jsonArrayNonempty (bytes.take (min replyBufferSize n)) (cstr "gravity") = true := by
  rw [queryPiGravity, List.take_take, asCStr_take hnul, ← Bool.or_eq_true]
  split
  · next hblocked => exact iff_of_true rfl hblocked
  · next hclean => exact iff_of_false (by decide) hclean

/-- **A reply as the Pi writes it** is read rightly from its first bytes on: as soon as these
reach the first item of the second array, it makes no difference how many there are, where they
break off, and what is in the items or behind them. -/
theorem documented_reply_exact {domains gravity : List JsonToken} (hdomains : Items domains)
    (hgravity : Items gravity) (more : List JsonToken)
    (hnul : 0 ∉ jsonQuoting.render (documentedReply domains gravity more)) {n : Nat} (hn : 36 ≤ n) :
    queryPiGravity (some ((jsonQuoting.render (documentedReply domains gravity more)).take n)) =
      .blocked ↔ domains ≠ [] ∨ gravity ≠ [] := by
  have hlong : 36 ≤ min replyBufferSize n := le_min (by decide) hn
  have hshape : jsonQuoting.render (documentedReply domains gravity more) = upToDomains ++
      jsonQuoting.render (domains ++ .mark 93 :: (([.mark 44, .string (cstr "gravity"), .mark 58,
        .mark 91] : List JsonToken) ++ (gravity ++ .mark 93 :: more))) := by
    rw [documentedReply]
    simp only [List.append_assoc, List.cons_append, List.nil_append]
    rfl
  rw [queryPiGravity_blocked hnul, hshape]
  generalize min replyBufferSize n = m at hlong
  obtain ⟨c, bytes, hfirst, hc, hempty⟩ := hdomains.render (([.mark 44, .string (cstr "gravity"),
    .mark 58, .mark 91] : List JsonToken) ++ (gravity ++ .mark 93 :: more))
  have htake : (upToDomains ++ c :: bytes).take m = upToDomains ++ c :: bytes.take (m - 23) := by
    have hlength : upToDomains.length = 22 := by decide
    rw [List.take_append, hlength, List.take_of_length_le (by omega),
      show m - 22 = (m - 23) + 1 by omega, List.take_succ_cons]
  have hfound := jsonArrayNonempty_of_found (by decide) (strstr_domains (c :: bytes.take (m - 23))) hc
  by_cases hnone : domains = []
  · -- nothing in the first array: the second one decides
    obtain ⟨c', bytes', hsecond, hc', hempty'⟩ := hgravity.render more
    have hbytes : c :: bytes = upToGravity ++ c' :: bytes' := by
      rw [← hfirst, hnone, ← hsecond]
      rfl
    have htake' : (upToDomains ++ c :: bytes).take m =
        upToDomains ++ (upToGravity ++ c' :: bytes'.take (m - 36)) := by
      have hlength : (upToDomains ++ upToGravity).length = 35 := by decide
      rw [hbytes, ← List.append_assoc, List.take_append, hlength, List.take_of_length_le (by omega),
        show m - 35 = (m - 36) + 1 by omega, List.take_succ_cons, List.append_assoc]
    have hfound' := jsonArrayNonempty_of_found (by decide)
      (strstr_gravity (c' :: bytes'.take (m - 36))) hc'
    have hclosed : ¬ c ≠ 93 := not_not.mpr (hempty.mpr hnone)
    rw [← htake, ← hfirst] at hfound
    rw [← htake', ← hfirst] at hfound'
    rw [hfound, hfound', or_iff_right hclosed, or_iff_right (not_not.mpr hnone)]
    exact not_congr hempty'
  · rw [hfirst, htake, hfound]
    exact iff_of_true (Or.inl (mt hempty.mp hnone)) (Or.inl hnone)

/-- The reply is cut within the second array, behind its first item, and is BLOCKED all the same. -/
theorem documented_reply_exact_cut :
    queryPiGravity (some ((jsonQuoting.render (documentedReply [] [.mark 49] [])).take 36)) =
      .blocked := by
  have hnothing : Items [] := by
    intro t ht
    cases ht
  have hone : Items [.mark 49] := by
    intro t ht
    obtain rfl := Option.some.inj ht
    exact ⟨by decide, by decide⟩
  have hnul : 0 ∉ jsonQuoting.render (documentedReply [] [.mark 49] []) := by decide +kernel
  exact (documented_reply_exact hnothing hone [] hnul (Nat.le_refl 36)).mpr
    (Or.inr (List.cons_ne_nil _ _))

end Nyet
