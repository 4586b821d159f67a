import Nyet.Lib.Reader
import Nyet.Packet.Answers

/-!
# DNS messages, as RFC 1035 has them

What a client or an upstream resolver makes of the bytes of a packet: a header with four
counts, and four sections with so many questions and records. Names may end in a pointer
to where a name stands further up in the message. This is what packets are for, and not
translated from `nyet.c`, which never decodes a message as a whole.
-/

namespace Nyet.Dns

open Nyet.Lib (Reader)
open Nyet.Lib.Reader

/-- Labels up to the root or a pointer. -/
structure Run where
  labels : List CStr
  pointer : Option Nat
  deriving DecidableEq

/-- An entry of the question section. -/
structure Question where
  name : List CStr
  qtype : UInt16
  qclass : UInt16
  deriving DecidableEq

/-- A resource record. -/
structure Record where
  name : List CStr
  type : UInt16
  class_ : UInt16
  ttl : UInt32
  rdata : CStr
  deriving DecidableEq

/-- The first twelve bytes of a message. -/
structure Header where
  id : UInt16
  flags : UInt16
  qdcount : UInt16
  ancount : UInt16
  nscount : UInt16
  arcount : UInt16
  deriving DecidableEq

/-- A message, with one list for each section. -/
structure Message where
  id : UInt16
  flags : UInt16
  questions : List Question
  answers : List Record
  authorities : List Record
  additional : List Record
  deriving DecidableEq

/-- The lowest four bits of the flags. -/
def Message.rcode (m : Message) : UInt16 := m.flags &&& 0x000F

/-! ## Reading -/

/-- Two bytes, the high one first. -/
def u16 : Reader UInt8 UInt16 := do
  let hi ← one
  let lo ← one
  pure (be16 hi lo)

/-- Four bytes, the highest one first. -/
def u32 : Reader UInt8 UInt32 := do
  let hi ← u16
  let lo ← u16
  pure (hi.toUInt32 <<< 16 ||| lo.toUInt32)

/-- A run of at most so many labels. -/
def labelRun : Nat → Reader UInt8 Run
  | 0 => fail
  | fuel + 1 => do
    let len ← one
    if len = 0 then pure ⟨[], none⟩
    else if len < 64 then do
      let label ← block len.toNat
      let run ← labelRun fuel
      pure ⟨label :: run.labels, run.pointer⟩
    -- two bits say that it is a pointer, fourteen where to
    else if 192 ≤ len then do
      let low ← one
      pure ⟨[], some ((len.toNat - 192) * 256 + low.toNat)⟩
    else fail

/-- A name with its pointers followed. They lead to an earlier place behind the header, so
the offset bounds how many there are. -/
def resolve : Nat → Reader UInt8 (List CStr)
  | 0 => fail
  | fuel + 1 => do
    let start ← here
    -- a name of 255 bytes has at most 127 labels
    let run ← labelRun 128
    match run.pointer with
    | none => pure run.labels
    | some target =>
      if 12 ≤ target ∧ target < start then do
        let rest ← elsewhere (resolve fuel) target
        pure (run.labels ++ rest)
      else fail

/-- The bytes a name takes when it is written out. -/
def octets (labels : List CStr) : Nat := (labels.map fun label => label.length + 1).sum + 1

/-- A name. -/
def name : Reader UInt8 (List CStr) := do
  let start ← here
  let labels ← resolve (start + 1)
  if octets labels ≤ 255 then pure labels else fail

/-- An entry of the question section. -/
def question : Reader UInt8 Question := do
  let name ← name
  let qtype ← u16
  let qclass ← u16
  pure ⟨name, qtype, qclass⟩

/-- A resource record. -/
def record : Reader UInt8 Record := do
  let name ← name
  let type ← u16
  let class_ ← u16
  let ttl ← u32
  let rdlength ← u16
  let rdata ← block rdlength.toNat
  pure ⟨name, type, class_, ttl, rdata⟩

/-- The header. -/
def header : Reader UInt8 Header := do
  let id ← u16
  let flags ← u16
  let qdcount ← u16
  let ancount ← u16
  let nscount ← u16
  let arcount ← u16
  pure ⟨id, flags, qdcount, ancount, nscount, arcount⟩

/-- The sections, each as long as its count says. -/
def sections (h : Header) : Reader UInt8 Message := do
  let questions ← many question h.qdcount.toNat
  let answers ← many record h.ancount.toNat
  let authorities ← many record h.nscount.toNat
  let additional ← many record h.arcount.toNat
  pure ⟨h.id, h.flags, questions, answers, authorities, additional⟩

/-- The message a packet is, which is nothing but its header and its sections. -/
def decode (packet : CStr) : Option Message :=
  match (do let h ← header; sections h) packet 0 with
  | none => none
  | some (m, stop) => if stop = packet.length then some m else none

example : decode (queryPacket 7 [cstr "example", cstr "com"] 1) =
    some ⟨7, 0x0100, [⟨[cstr "example", cstr "com"], 1, 1⟩], [], [], []⟩ := by
  decide +kernel

theorem u16_next {s : CStr} {pos next : Nat} {x : UInt16} (h : u16 s pos = some (x, next)) :
    next = pos + 2 ∧ next ≤ s.length := by
  obtain ⟨hi, _, hhi, h⟩ := bind_eq_some.mp h
  obtain ⟨_, -, heq⟩ := Option.map_eq_some_iff.mp hhi
  cases heq
  obtain ⟨lo, _, hlo, h⟩ := bind_eq_some.mp h
  obtain ⟨b, hb, heq⟩ := Option.map_eq_some_iff.mp hlo
  cases heq
  cases h
  obtain ⟨hlt, -⟩ := List.getElem?_eq_some_iff.mp hb
  exact ⟨rfl, hlt⟩

/-- The header takes twelve bytes. -/
theorem header_next {packet : CStr} {start : Nat} {h : Header}
    (hheader : header packet 0 = some (h, start)) : start = 12 ∧ 12 ≤ packet.length := by
  obtain ⟨id, p1, hid, hheader⟩ := bind_eq_some.mp hheader
  obtain ⟨flags, p2, hflags, hheader⟩ := bind_eq_some.mp hheader
  obtain ⟨qdcount, p3, hqd, hheader⟩ := bind_eq_some.mp hheader
  obtain ⟨ancount, p4, han, hheader⟩ := bind_eq_some.mp hheader
  obtain ⟨nscount, p5, hns, hheader⟩ := bind_eq_some.mp hheader
  obtain ⟨arcount, p6, har, hheader⟩ := bind_eq_some.mp hheader
  cases hheader
  have h1 := u16_next hid
  have h2 := u16_next hflags
  have h3 := u16_next hqd
  have h4 := u16_next han
  have h5 := u16_next hns
  have h6 := u16_next har
  omega

/-- What is behind the header. -/
theorem decode_eq_some {packet : CStr} {m : Message} : decode packet = some m ↔
    ∃ h, header packet 0 = some (h, 12) ∧ sections h packet 12 = some (m, packet.length) := by
  rw [decode]
  constructor
  · intro h
    split at h
    · cases h
    next m' stop hread =>
      split at h
      case isTrue hstop =>
        cases h
        subst hstop
        obtain ⟨h, start, hheader, hsections⟩ := bind_eq_some.mp hread
        obtain ⟨rfl, -⟩ := header_next hheader
        exact ⟨h, hheader, hsections⟩
      case isFalse => cases h
  · rintro ⟨h, hheader, hsections⟩
    have hread : (do let h ← header; sections h) packet 0 = some (m, packet.length) :=
      bind_eq_some.mpr ⟨h, 12, hheader, hsections⟩
    rw [hread]
    exact if_pos rfl

theorem sections_eq_some {h : Header} {packet : CStr} {pos stop : Nat} {m : Message} :
    sections h packet pos = some (m, stop) ↔
      m.id = h.id ∧ m.flags = h.flags ∧ ∃ p1 p2 p3,
        many question h.qdcount.toNat packet pos = some (m.questions, p1) ∧
        many record h.ancount.toNat packet p1 = some (m.answers, p2) ∧
        many record h.nscount.toNat packet p2 = some (m.authorities, p3) ∧
        many record h.arcount.toNat packet p3 = some (m.additional, stop) := by
  constructor
  · intro hsections
    obtain ⟨questions, p1, hqd, hsections⟩ := bind_eq_some.mp hsections
    obtain ⟨answers, p2, han, hsections⟩ := bind_eq_some.mp hsections
    obtain ⟨authorities, p3, hns, hsections⟩ := bind_eq_some.mp hsections
    obtain ⟨additional, p4, har, hsections⟩ := bind_eq_some.mp hsections
    cases hsections
    exact ⟨rfl, rfl, p1, p2, p3, hqd, han, hns, har⟩
  · rintro ⟨hid, hflags, p1, p2, p3, hqd, han, hns, har⟩
    refine bind_eq_some.mpr ⟨_, p1, hqd, bind_eq_some.mpr ⟨_, p2, han, bind_eq_some.mpr
      ⟨_, p3, hns, bind_eq_some.mpr ⟨_, stop, har, ?_⟩⟩⟩⟩
    rw [← hid, ← hflags]
    rfl

/-! ## Longer packets -/

theorem u16_stable (base : Nat) : Stable base u16 :=
  (Stable.one base).bind fun _ => (Stable.one base).bind fun _ => .pure base _

theorem u32_stable (base : Nat) : Stable base u32 :=
  (u16_stable base).bind fun _ => (u16_stable base).bind fun _ => .pure base _

theorem labelRun_stable (base : Nat) : ∀ fuel, Stable base (labelRun fuel)
  | 0 => .fail base
  | fuel + 1 => by
    refine (Stable.one base).bind fun len => ?_
    split
    · exact .pure base _
    · split
      · exact (Stable.block base _).bind fun _ =>
          (labelRun_stable base fuel).bind fun _ => .pure base _
      · split
        · exact (Stable.one base).bind fun _ => .pure base _
        · exact .fail base

theorem resolve_stable : ∀ fuel, Stable 12 (resolve fuel)
  | 0 => .fail 12
  | fuel + 1 => by
    refine (Stable.here 12).bind fun start => (labelRun_stable 12 128).bind fun run => ?_
    split
    · exact .pure 12 _
    · split
      case isTrue hback =>
        exact ((resolve_stable fuel).elsewhere hback.1).bind fun _ => .pure 12 _
      case isFalse => exact .fail 12

theorem name_stable : Stable 12 name := by
  refine (Stable.here 12).bind fun start => (resolve_stable _).bind fun labels => ?_
  split
  · exact .pure 12 _
  · exact .fail 12

theorem question_stable : Stable 12 question :=
  name_stable.bind fun _ => (u16_stable 12).bind fun _ => (u16_stable 12).bind fun _ => .pure 12 _

theorem record_stable : Stable 12 record :=
  name_stable.bind fun _ => (u16_stable 12).bind fun _ => (u16_stable 12).bind fun _ =>
    (u32_stable 12).bind fun _ => (u16_stable 12).bind fun _ => (Stable.block 12 _).bind fun _ =>
      .pure 12 _

/-- A question takes more than no bytes. -/
theorem question_next {packet : CStr} {pos next : Nat} {q : Question}
    (h : question packet pos = some (q, next)) :
    pos < next ∧ ∃ stop, name packet pos = some (q.name, stop) := by
  obtain ⟨labels, p1, hname, h⟩ := bind_eq_some.mp h
  obtain ⟨qtype, p2, hqtype, h⟩ := bind_eq_some.mp h
  obtain ⟨qclass, p3, hqclass, h⟩ := bind_eq_some.mp h
  cases h
  have h1 := name_stable.forward hname
  have h2 := u16_next hqtype
  have h3 := u16_next hqclass
  exact ⟨by omega, p1, hname⟩

/-! ## Records that point at the question -/

/-- The offset is fuel enough. -/
theorem resolve_fuel {msg : CStr} : ∀ {fuel fuel' pos stop : Nat} {labels : List CStr},
    resolve fuel msg pos = some (labels, stop) → pos < fuel' →
      resolve fuel' msg pos = some (labels, stop)
  | 0, _, _, _, _, h, _ => by cases h
  | fuel + 1, fuel' + 1, pos, stop, labels, h, hpos => by
    obtain ⟨start, _, hstart, h⟩ := bind_eq_some.mp h
    cases hstart
    obtain ⟨run, next, hrun, h⟩ := bind_eq_some.mp h
    refine bind_eq_some.mpr ⟨pos, pos, rfl, bind_eq_some.mpr ⟨run, next, hrun, ?_⟩⟩
    cases hpointer : run.pointer with
    | none =>
      rw [hpointer] at h
      exact h
    | some target =>
      rw [hpointer] at h
      dsimp only at h ⊢
      split at h
      -- a pointer leads further to the front, and the offset bounds how often
      case isTrue hback =>
        obtain ⟨rest, behind, helse, h⟩ := bind_eq_some.mp h
        obtain ⟨hbehind, last, hrest⟩ := elsewhere_eq_some.mp helse
        rw [if_pos hback]
        exact bind_eq_some.mpr ⟨rest, behind, elsewhere_eq_some.mpr ⟨hbehind, last,
          resolve_fuel hrest (Nat.lt_of_lt_of_le hback.2 (Nat.le_of_lt_succ hpos))⟩, h⟩
      case isFalse => cases h

theorem name_eq_some {msg : CStr} {pos stop : Nat} {labels : List CStr} :
    name msg pos = some (labels, stop) ↔
      resolve (pos + 1) msg pos = some (labels, stop) ∧ octets labels ≤ 255 := by
  rw [name]
  rw [bind_eq_some]
  constructor
  · rintro ⟨start, _, hstart, h⟩
    cases hstart
    obtain ⟨labels', next, hresolve, h⟩ := bind_eq_some.mp h
    split at h
    case isTrue hshort =>
      cases h
      exact ⟨hresolve, hshort⟩
    case isFalse => cases h
  · rintro ⟨hresolve, hshort⟩
    refine ⟨pos, pos, rfl, bind_eq_some.mpr ⟨labels, stop, hresolve, ?_⟩⟩
    rw [if_pos hshort]
    rfl

/-- The name behind the header is `owner`. -/
def Named (owner : List CStr) (front : CStr) : Prop :=
  12 < front.length ∧ ∃ stop, name front 12 = some (owner, stop)

theorem Named.grows (owner : List CStr) : Grows (Named owner) := by
  rintro front text ⟨hlong, stop, hname⟩
  refine ⟨?_, stop, name_stable.read (.append 12 front text) (Nat.le_refl _) hname⟩
  rw [List.length_append]
  omega

/-- The pointer in front of every answer ends a run of labels. -/
theorem pointer_run (P : CStr → Prop) (hP : Grows P) (fuel : Nat) :
    Reads P (labelRun (fuel + 1)) ⟨[], some 12⟩ [0xc0, 0x0c] := by
  have hlow : Reads P
      (do let low ← one; pure ⟨[], some (((0xc0 : UInt8).toNat - 192) * 256 + low.toNat)⟩)
      (⟨[], some 12⟩ : Run) ([0x0c] ++ []) := Reads.bind hP (.one P _) (.pure P _)
  refine Reads.bind hP (.one P 0xc0) ?_
  rw [if_neg (by decide), if_neg (by decide), if_pos (by decide)]
  exact hlow

/-- It stands for the name of the question. -/
theorem pointer_reads (owner : List CStr) : Reads (Named owner) name owner [0xc0, 0x0c] := by
  intro front back hfront
  have hrun := pointer_run (Named owner) (Named.grows owner) 127 front back hfront
  -- the question is still there in the longer packet
  obtain ⟨-, stop, hname⟩ := Named.grows owner _ back
    (Named.grows owner _ [0xc0, 0x0c] hfront)
  obtain ⟨hresolve, hshort⟩ := name_eq_some.mp hname
  refine name_eq_some.mpr ⟨?_, hshort⟩
  refine bind_eq_some.mpr ⟨_, _, rfl, bind_eq_some.mpr ⟨_, _, hrun, ?_⟩⟩
  dsimp only
  rw [if_pos ⟨Nat.le_refl 12, hfront.1⟩]
  exact bind_eq_some.mpr ⟨owner, _, elsewhere_eq_some.mpr
    ⟨rfl, stop, resolve_fuel hresolve hfront.1⟩, rfl⟩

theorem u16_reads {P : CStr → Prop} (hP : Grows P) (x : UInt16) : Reads P u16 x (wire16 x) := by
  have hlast : Reads P (do let lo ← one; pure (be16 (x >>> 8).toUInt8 lo))
      (be16 (x >>> 8).toUInt8 x.toUInt8) ([x.toUInt8] ++ []) :=
    Reads.bind hP (Reads.one P _) (.pure P _)
  have h : Reads P u16 _ ([(x >>> 8).toUInt8] ++ _) := Reads.bind hP (Reads.one P _) hlast
  rwa [be16_wire16] at h

theorem u32_reads {P : CStr → Prop} (hP : Grows P) (x : UInt32) : Reads P u32 x (wire32 x) := by
  have hlast : Reads P
      (do let lo ← u16; pure ((x >>> 16).toUInt16.toUInt32 <<< 16 ||| lo.toUInt32))
      ((x >>> 16).toUInt16.toUInt32 <<< 16 ||| x.toUInt16.toUInt32) (wire16 x.toUInt16 ++ []) :=
    Reads.bind hP (u16_reads hP _) (.pure P _)
  have h : Reads P u32 _ (wire16 (x >>> 16).toUInt16 ++ _) :=
    Reads.bind hP (u16_reads hP _) hlast
  rwa [high_or_low, List.append_nil, ← wire32_eq] at h

/-- **A record as the encoders of the proxy write it** is read back, with the name of the
question as its owner. -/
theorem record_reads (owner : List CStr) (type : UInt16) (ttl : UInt32) {rdlength : UInt16}
    {rdata : CStr} (hlength : rdata.length = rdlength.toNat) :
    Reads (Named owner) record ⟨owner, type, 1, ttl, rdata⟩
      (recordHeader type ttl rdlength ++ rdata) := by
  have hP := Named.grows owner
  have hrdata : Reads (Named owner) (block rdlength.toNat) rdata rdata := by
    rw [← hlength]
    exact .block _ rdata
  have h : Reads (Named owner) record ⟨owner, type, 1, ttl, rdata⟩
      ([0xc0, 0x0c] ++ (wire16 type ++ (wire16 1 ++ (wire32 ttl ++ (wire16 rdlength ++
        (rdata ++ [])))))) :=
    Reads.bind hP (pointer_reads owner) <| Reads.bind hP (u16_reads hP type) <|
      Reads.bind hP (u16_reads hP 1) <| Reads.bind hP (u32_reads hP ttl) <|
        Reads.bind hP (u16_reads hP rdlength) <| Reads.bind hP hrdata <| .pure _ _
  rw [recordHeader]
  simpa only [List.append_assoc, List.append_nil] using h

end Nyet.Dns
