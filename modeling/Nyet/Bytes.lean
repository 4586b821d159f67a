import Mathlib

/-!
# Byte strings

C strings as the list of bytes before the terminating NUL. Labels, domains and
notes are all such lists; a `{pointer, length}` label of `radix_tree.c` is the
list of its bytes, so its length field is the list's length.
-/

namespace Nyet

/-- A C string: its bytes before the terminating NUL. -/
abbrev CStr := List UInt8

/-- The bytes of a Lean string literal (ASCII only). -/
def cstr (s : String) : CStr := s.toList.map fun c => c.toNat.toUInt8

/-- What holds of all 256 bytes. -/
theorem forall_byte {P : UInt8 → Prop} (h : ∀ n < 256, P n.toUInt8) (c : UInt8) : P c := by
  have hc := h c.toNat c.toNat_lt
  rwa [Nat.toUInt8_eq, UInt8.ofNat_toNat] at hc

/-- `'.'` -/
def dot : UInt8 := 46

/-- `(c >= 'A' && c <= 'Z') ? (char)(c + 32) : c` -/
def lowerByte (c : UInt8) : UInt8 :=
  if 65 ≤ c ∧ c ≤ 90 then c + 32 else c

/-- `memcmp(a, b, n)` on two buffers of at least `n` bytes; only its sign is
ever used. -/
def memcmp : CStr → CStr → Nat → Int
  | x :: xs, y :: ys, n + 1 =>
    if x = y then memcmp xs ys n else (x.toNat : Int) - (y.toNat : Int)
  | _, _, _ => 0

/-- A buffer read as a C string. -/
def asCStr (buf : CStr) : CStr := buf.takeWhile (· ≠ 0)

/-- `memcpy(buf + p, bytes, sizeof(bytes))` -/
def overwrite (buf : CStr) (p : Nat) (bytes : CStr) : CStr :=
  buf.take p ++ bytes ++ buf.drop (p + bytes.length)

theorem overwrite_append (front back bytes : CStr) (p : Nat) :
    overwrite (front ++ back) (front.length + p) bytes = front ++ overwrite back p bytes := by
  unfold overwrite
  rw [List.take_length_add_append, Nat.add_assoc, List.drop_length_add_append]
  simp only [List.append_assoc]

/-- `buf[i] = b`; `none` is a write outside of the buffer. -/
def putByte (buf : CStr) (i : Nat) (b : UInt8) : Option CStr :=
  if i < buf.length then some (buf.set i b) else none

theorem putByte_of_lt {buf : CStr} {i : Nat} (h : i < buf.length) (b : UInt8) :
    putByte buf i b = some (buf.set i b) := if_pos h

/-- Writing behind what is filled. -/
theorem putByte_append (front back : CStr) (old b : UInt8) :
    putByte (front ++ old :: back) front.length b = some (front ++ b :: back) := by
  rw [putByte_of_lt (by simp), List.set_append_right _ _ (Nat.le_refl _), Nat.sub_self,
    List.set_cons_zero]

end Nyet
