import Implementors.Text.Utf8

/-! Texts as octets. Texts joined are octets joined, different texts have different octets, and an
ASCII octet stands for its character alone. -/
namespace Implementors.Text

theorem encode_append (s t : String) : encode (s ++ t) = encode s ++ encode t := by
  simp [encode, String.toByteArray_append]

theorem decode?_eq_some_iff {octets : Octets} {s : String} :
    decode? octets = some s ↔ octets = encode s :=
  ⟨encode_of_decode?, fun h => h ▸ decode?_encode s⟩

theorem encode_inj {s t : String} : encode s = encode t ↔ s = t := by
  refine ⟨fun h => ?_, congrArg encode⟩
  exact Option.some.inj ((decode?_encode s).symm.trans (decode?_eq_some_iff.mpr h))

theorem encode_eq_flatMap (s : String) : encode s = s.toList.flatMap String.utf8EncodeChar := by
  rw [encode, ← String.utf8Encode_toList, List.utf8Encode]
  simp

theorem length_encode (s : List Char) : (encode (String.ofList s)).length = octetCount s := by
  rw [encode_eq_flatMap, String.toList_ofList]
  induction s with
  | nil => rfl
  | cons c s ih => simp [octetCount, ih]

/-- The octets of a text up to a character are a place in it, and those behind are the octets of
what is left. -/
theorem slice_append (s t : List Char) :
    String.Pos.Raw.IsValid (String.ofList (s ++ t)) ⟨octetCount s⟩ ∧
      (encode (String.ofList (s ++ t))).drop (octetCount s) = encode (String.ofList t) := by
  rw [String.ofList_append]
  constructor
  · refine String.Pos.Raw.isValid_iff_exists_append.mpr ⟨_, _, rfl, ?_⟩
    rw [← length_encode]
    rfl
  · rw [encode_append, ← length_encode, List.drop_left]

/-- A character of two octets or more has none in ASCII. -/
theorem mem_utf8EncodeChar_iff {b : UInt8} (hb : b.toNat < 0x80) (c : Char) :
    b ∈ String.utf8EncodeChar c ↔ c.toNat = b.toNat := by
  have hc : c.val.toNat = c.toNat := rfl
  unfold String.utf8EncodeChar
  simp only [hc]
  split
  · simp only [List.mem_singleton, ← UInt8.toNat_inj, UInt8.toNat_ofNat']
    omega
  · split
    · simp only [List.mem_cons, List.not_mem_nil, or_false, ← UInt8.toNat_inj,
        UInt8.toNat_ofNat']
      omega
    · split
      all_goals
        simp only [List.mem_cons, List.not_mem_nil, or_false, ← UInt8.toNat_inj,
          UInt8.toNat_ofNat']
        omega

theorem mem_encode_iff {c : Char} (hc : c.toNat < 0x80) (s : String) :
    c.toUInt8 ∈ encode s ↔ c ∈ s.toList := by
  have hb : c.toUInt8.toNat = c.toNat := by
    rw [Char.toUInt8, UInt32.toNat_toUInt8]
    exact Nat.mod_eq_of_lt (Nat.lt_trans hc (by decide))
  rw [encode_eq_flatMap, List.mem_flatMap]
  constructor
  · rintro ⟨d, hd, hm⟩
    rw [mem_utf8EncodeChar_iff (hb ▸ hc), hb] at hm
    rwa [← Char.toNat_inj.mp hm]
  · intro hm
    exact ⟨c, hm, (mem_utf8EncodeChar_iff (hb ▸ hc) c).mpr hb.symm⟩

end Implementors.Text
