import Mathlib.Data.List.TakeWhile

/-! # Text as bytes

The UTF-8 bytes of a text, the places where a text may be cut, and what a scan of the bytes for
ASCII characters finds in the text.
-/
namespace Dtrun.Utf8
set_option autoImplicit false

def encode (text : List Char) : List UInt8 := text.flatMap String.utf8EncodeChar

/-- `str::from_utf8` -/
def decode (bytes : List UInt8) : Option (List Char) :=
  (String.fromUTF8? bytes.toByteArray).map String.toList

/-- `str::is_char_boundary`: at the ends, and before a byte that does not continue a character. -/
def isCharBoundary (bytes : List UInt8) (i : Nat) : Bool :=
  i = 0 ∨ i = bytes.length ∨ bytes[i]?.any fun b => b < 0x80 ∨ 0xc0 ≤ b

variable {c : Char} {text rest : List Char} {bytes : List UInt8} {b : UInt8} {p : UInt8 → Bool}

@[simp] theorem encode_nil : encode [] = [] := rfl

theorem encode_cons : encode (c :: rest) = String.utf8EncodeChar c ++ encode rest := rfl

theorem encode_append : encode (text ++ rest) = encode text ++ encode rest := List.flatMap_append

theorem length_le_encode (text : List Char) : text.length ≤ (encode text).length := by
  induction text with
  | nil => exact Nat.le_refl 0
  | cons c rest ih =>
    have hChar : 0 < (String.utf8EncodeChar c).length :=
      List.length_pos_iff.mpr String.utf8EncodeChar_ne_nil
    rw [encode_cons, List.length_append, List.length_cons]
    omega

theorem encodeChar_ascii (h : c.toNat < 128) :
    String.utf8EncodeChar c = [UInt8.ofNat c.toNat] := by
  have hSmall : c.val.toNat ≤ 0x7f := Nat.le_of_lt_succ h
  simp only [String.utf8EncodeChar, hSmall, if_true]
  rfl

theorem length_encode_ascii (h : ∀ c ∈ text, c.toNat < 128) :
    (encode text).length = text.length := by
  induction text with
  | nil => rfl
  | cons c rest ih =>
    rw [List.forall_mem_cons] at h
    rw [encode_cons, encodeChar_ascii h.1, List.singleton_append, List.length_cons,
      List.length_cons, ih h.2]

theorem utf8ByteSize_eq (s : String) : s.utf8ByteSize = (encode s.toList).length := by
  have hBytes : (String.ofList s.toList).utf8ByteSize = (encode s.toList).length :=
    List.size_toByteArray
  rwa [String.ofList_toList] at hBytes

theorem encode_injective : Function.Injective encode := by
  intro text rest h
  have hBytes : (String.ofList text).toByteArray = (String.ofList rest).toByteArray :=
    congrArg List.toByteArray h
  exact String.ofList_inj.mp (String.toByteArray_inj.mp hBytes)

theorem decode_eq_some_iff : decode bytes = some text ↔ encode text = bytes := by
  rw [decode, String.fromUTF8?, ← List.toByteArray_inj]
  split
  · rename_i hValid
    rw [Option.map_some, Option.some_inj]
    constructor
    · rintro rfl
      exact (congrArg String.toByteArray String.ofList_toList :)
    · intro h
      rw [← String.toList_ofList (l := text)]
      exact congrArg String.toList (String.toByteArray_inj.mp h.symm)
  · rename_i hValid
    refine iff_of_false (by simp) fun h => hValid ?_
    rw [← h]
    exact ByteArray.isValidUTF8_utf8Encode

theorem prefix_of_encode (h : encode text <+: encode rest) : text <+: rest := by
  obtain ⟨more, hMore⟩ := h
  refine List.isPrefix_of_utf8Encode_append_eq_utf8Encode more.toByteArray ?_
  have hBytes := congrArg List.toByteArray hMore
  rw [List.toByteArray_append] at hBytes
  exact hBytes

/-- The other characters start with a byte that no ASCII character has and that continues none. -/
theorem encodeChar_other (h : 128 ≤ c.toNat) :
    ∃ b bytes, String.utf8EncodeChar c = b :: bytes ∧ 0xc0 ≤ b := by
  have hLarge : ¬ c.val.toNat ≤ 0x7f := Nat.not_le_of_lt h
  have hLead {n : Nat} (hn : n < 256) (hLow : 0xc0 ≤ n) : (0xc0 : UInt8) ≤ UInt8.ofNat n := by
    rw [UInt8.le_iff_toNat_le, UInt8.toNat_ofNat_of_lt' hn]
    exact hLow
  rw [String.utf8EncodeChar]
  simp only [hLarge, if_false]
  split
  · exact ⟨_, _, rfl, hLead (by omega) (by omega)⟩
  · split
    · exact ⟨_, _, rfl, hLead (by omega) (by omega)⟩
    · exact ⟨_, _, rfl, hLead (by omega) (by omega)⟩

theorem encodeChar_large (h : 128 ≤ c.toNat) (hb : b ∈ String.utf8EncodeChar c) : 0x80 ≤ b := by
  have hLarge : ¬ c.val.toNat ≤ 0x7f := Nat.not_le_of_lt h
  have hByte {n : Nat} (hn : n < 256) (hLow : 0x80 ≤ n) : (0x80 : UInt8) ≤ UInt8.ofNat n := by
    rw [UInt8.le_iff_toNat_le, UInt8.toNat_ofNat_of_lt' hn]
    exact hLow
  rw [String.utf8EncodeChar] at hb
  simp only [hLarge, if_false] at hb
  split at hb
  · simp only [List.mem_cons, List.not_mem_nil, or_false] at hb
    rcases hb with rfl | rfl
    · exact hByte (by omega) (by omega)
    · exact hByte (by omega) (by omega)
  · split at hb
    · simp only [List.mem_cons, List.not_mem_nil, or_false] at hb
      rcases hb with rfl | rfl | rfl
      · exact hByte (by omega) (by omega)
      · exact hByte (by omega) (by omega)
      · exact hByte (by omega) (by omega)
    · simp only [List.mem_cons, List.not_mem_nil, or_false] at hb
      rcases hb with rfl | rfl | rfl | rfl
      · exact hByte (by omega) (by omega)
      · exact hByte (by omega) (by omega)
      · exact hByte (by omega) (by omega)
      · exact hByte (by omega) (by omega)

theorem ascii_mem_encode (hAscii : b < 0x80) (hb : b ∈ encode text) :
    Char.ofNat b.toNat ∈ text := by
  obtain ⟨c, hc, hChar⟩ := List.mem_flatMap.mp hb
  rcases Nat.lt_or_ge c.toNat 128 with hSmall | hLarge
  · rw [encodeChar_ascii hSmall, List.mem_singleton] at hChar
    rw [hChar, UInt8.toNat_ofNat_of_lt' (Nat.lt_trans hSmall (by decide)), Char.ofNat_toNat]
    exact hc
  · have hNot := encodeChar_large hLarge hChar
    rw [UInt8.le_iff_toNat_le] at hNot
    rw [UInt8.lt_iff_toNat_lt] at hAscii
    exact absurd (Nat.lt_of_le_of_lt hNot hAscii) (Nat.lt_irrefl _)

/-- A text may be cut wherever one of its characters ends. -/
theorem isCharBoundary_encode : isCharBoundary (encode (text ++ rest)) (encode text).length = true := by
  rw [isCharBoundary, encode_append, decide_eq_true_iff]
  cases rest with
  | nil => exact .inr (.inl (by simp))
  | cons c rest =>
    refine .inr (.inr ?_)
    rw [List.getElem?_append_right (Nat.le_refl _), Nat.sub_self, encode_cons]
    rcases Nat.lt_or_ge c.toNat 128 with hAscii | hOther
    · have hByte : UInt8.ofNat c.toNat < 0x80 := by
        rw [UInt8.lt_iff_toNat_lt, UInt8.toNat_ofNat_of_lt' (Nat.lt_trans hAscii (by decide))]
        exact hAscii
      simp [encodeChar_ascii hAscii, hByte]
    · obtain ⟨b, bytes, hBytes, hLead⟩ := encodeChar_other hOther
      simp [hBytes, hLead]

def ascii (p : UInt8 → Bool) (c : Char) : Bool := c.toNat < 128 && p (UInt8.ofNat c.toNat)

variable (hp : ∀ b, p b = true → b < 0x80)
include hp

theorem takeWhile_encode (text : List Char) :
    (encode text).takeWhile p = encode (text.takeWhile (ascii p)) := by
  induction text with
  | nil => rfl
  | cons c rest ih =>
    rw [encode_cons, List.takeWhile_cons]
    rcases Nat.lt_or_ge c.toNat 128 with hAscii | hOther
    · rw [encodeChar_ascii hAscii, List.singleton_append, List.takeWhile_cons, ih]
      simp only [ascii, hAscii, decide_true, Bool.true_and]
      split
      · rw [encode_cons, encodeChar_ascii hAscii]
        rfl
      · rfl
    · obtain ⟨b, bytes, hBytes, hLead⟩ := encodeChar_other hOther
      have hNot : ¬ p b = true := fun hb => by
        have hSmall := hp b hb
        rw [UInt8.lt_iff_toNat_lt] at hSmall
        rw [UInt8.le_iff_toNat_le] at hLead
        exact absurd (Nat.lt_of_le_of_lt hLead hSmall) (by decide)
      have hAscii : ¬ ascii p c = true := by simp [ascii, Nat.not_lt.mpr hOther]
      rw [hBytes, List.cons_append, List.takeWhile_cons_of_neg hNot, if_neg hAscii]
      rfl

end Dtrun.Utf8
