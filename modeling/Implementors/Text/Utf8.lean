/-! Octets and characters: sizes in UTF-8, strict reading, and lenient reading for display, where
each octet sequence that breaks off becomes one replacement character. -/
namespace Implementors

abbrev Octets := List UInt8

namespace Text

/-- The number of octets that a text takes in UTF-8. -/
def octetCount : List Char → Nat
  | [] => 0
  | c :: s => c.utf8Size + octetCount s

def encode (s : String) : Octets := s.toByteArray.data.toList

def decode? (octets : Octets) : Option String := String.fromUTF8? ⟨octets.toArray⟩

theorem decode?_encode (s : String) : decode? (encode s) = some s := by
  have h : (⟨(encode s).toArray⟩ : ByteArray) = s.toByteArray := by simp [encode]
  rw [decode?, h, String.fromUTF8?, dif_pos s.isValidUTF8]
  rfl

theorem encode_of_decode? {octets : Octets} {s : String} (h : decode? octets = some s) :
    octets = encode s := by
  unfold decode? String.fromUTF8? at h
  split at h
  · obtain rfl := Option.some.inj h
    simp [encode, String.fromUTF8]
  · exact absurd h (by simp)

/-- What a lenient reader still owes: the count of octets to come, the window for the next one,
and the bits read so far. -/
structure Owed where
  count : Nat
  low : UInt8
  high : UInt8
  bits : Nat

/-- What the first octet of a character announces. -/
inductive Lead
  | ascii
  | owes (o : Owed)
  | stray

def lead (b : UInt8) : Lead :=
  if b < 0x80 then .ascii
  else if b < 0xC2 then .stray
  else if b < 0xE0 then .owes ⟨1, 0x80, 0xBF, b.toNat - 0xC0⟩
  else if b < 0xF0 then
    .owes ⟨2, if b = 0xE0 then 0xA0 else 0x80, if b = 0xED then 0x9F else 0xBF, b.toNat - 0xE0⟩
  else if b < 0xF5 then
    .owes ⟨3, if b = 0xF0 then 0x90 else 0x80, if b = 0xF4 then 0x8F else 0xBF, b.toNat - 0xF0⟩
  else .stray

def replacement : Char := '\uFFFD'

/-- Reads on from what is owed. An octet outside the window ends the broken sequence and is
looked at again as the first octet of a character. -/
def lenientFrom : Option Owed → Octets → List Char
  | none, [] => []
  | some _, [] => [replacement]
  | none, b :: r =>
    match lead b with
    | .ascii => Char.ofNat b.toNat :: lenientFrom none r
    | .owes o => lenientFrom (some o) r
    | .stray => replacement :: lenientFrom none r
  | some o, b :: r =>
    if o.low ≤ b ∧ b ≤ o.high then
      let bits := o.bits * 64 + (b.toNat - 0x80)
      if o.count ≤ 1 then Char.ofNat bits :: lenientFrom none r
      else lenientFrom (some ⟨o.count - 1, 0x80, 0xBF, bits⟩) r
    else
      match lead b with
      | .ascii => replacement :: Char.ofNat b.toNat :: lenientFrom none r
      | .owes o => replacement :: lenientFrom (some o) r
      | .stray => replacement :: replacement :: lenientFrom none r

/-- A text for any octets; those that are not UTF-8 show as U+FFFD. -/
def lenient (octets : Octets) : String := String.ofList (lenientFrom none octets)

end Text
end Implementors
