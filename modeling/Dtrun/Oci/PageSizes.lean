import Dtrun.Library.Grammars
import Dtrun.Library.Utf8

/-! # The sizes of huge pages

A `pageSize` is checked byte by byte up to the end of its number, and what follows is taken as a
slice of the text. The check against the grammar of the config format.
-/
namespace Dtrun.Oci
set_option autoImplicit false
open Grammars Utf8 RegularExpression

def isAsciiDigit (b : UInt8) : Bool := 0x30 ≤ b ∧ b ≤ 0x39

/-- The loop over the number, with the index that it has reached. -/
def numberEnd : List UInt8 → Nat → Nat
  | [], i => i
  | b :: rest, i => if isAsciiDigit b then numberEnd rest (i + 1) else i

/-- `&s[i..]`, which panics inside a character. -/
def sliceFrom (bytes : List UInt8) (i : Nat) : Option (List UInt8) :=
  if isCharBoundary bytes i then some (bytes.drop i) else none

def UNITS : List String := ["KB", "MB", "GB", "KiB", "MiB", "GiB"]

/-- There is no result when an index is out of range or a slice starts inside a character. -/
def isValidHugepageSize (s : String) : Option Bool :=
  let bytes := encode s.toList
  if bytes.length < 2 then some false else
  bytes[0]?.bind fun first =>
    if !isAsciiDigit first || first = 0x30 then some false else
    let i := numberEnd bytes 0
    if i = 0 then some false else
    (sliceFrom bytes i).map fun rest => rest ∈ UNITS.map fun unit => encode unit.toList

def deserializeHugepageSize (s : String) : Option (Except String String) :=
  (isValidHugepageSize s).map fun valid =>
    if valid then .ok s else
      .error s!"invalid hugepage pageSize '{s}': must match ^[1-9][0-9]*[KMG]i?B$"

/-- `[KMG]i?B` -/
def UNIT : RegularExpression Char := oneOf ['K', 'M', 'G'] * (optional (char 'i') * char 'B')

/-- `[1-9][0-9]*[KMG]i?B` -/
def PAGE_SIZE : RegularExpression Char := oneOf NONZERO * (star (oneOf DIGITS) * UNIT)

variable {c : Char} {text : List Char}

theorem mem_unit : text ∈ UNIT.matches' ↔ text ∈ UNITS.map String.toList := by
  constructor
  · intro h
    obtain ⟨_, hPrefix, _, hRest, rfl⟩ := mem_mul.mp h
    obtain ⟨_, hMid, _, hEnd, rfl⟩ := mem_mul.mp hRest
    obtain ⟨p, hp, rfl⟩ := mem_oneOf.mp hPrefix
    obtain rfl := mem_char.mp hEnd
    simp only [List.mem_cons, List.not_mem_nil, or_false] at hp
    rcases mem_optional.mp hMid with rfl | hMid
    · rcases hp with rfl | rfl | rfl
      · decide
      · decide
      · decide
    · obtain rfl := mem_char.mp hMid
      rcases hp with rfl | rfl | rfl
      · decide
      · decide
      · decide
  · revert text
    decide

/-- A text matches when it starts with a digit other than zero and has a unit behind its digits. -/
theorem mem_pageSize : text ∈ PAGE_SIZE.matches' ↔
    (∃ c ∈ NONZERO, text.head? = some c) ∧
      text.dropWhile Char.isDigit ∈ UNITS.map String.toList := by
  constructor
  · intro h
    obtain ⟨_, hFirst, _, hRest, rfl⟩ := mem_mul.mp h
    obtain ⟨digits, hDigits, unit, hUnit, rfl⟩ := mem_mul.mp hRest
    obtain ⟨c, hc, rfl⟩ := mem_oneOf.mp hFirst
    rw [mem_unit] at hUnit
    have hAll : ∀ d ∈ c :: digits, d.isDigit = true := by
      rw [List.forall_mem_cons]
      exact ⟨(mem_nonzero.mp hc).1, fun d hd => mem_digits.mp (mem_star_oneOf.mp hDigits d hd)⟩
    have hUnits : ∀ u ∈ UNITS.map String.toList, u.dropWhile Char.isDigit = u := by decide
    refine ⟨⟨c, hc, rfl⟩, ?_⟩
    rw [List.singleton_append, ← List.cons_append, List.dropWhile_append_of_pos hAll,
      hUnits unit hUnit]
    exact hUnit
  · rintro ⟨⟨c, hc, hHead⟩, hUnit⟩
    obtain ⟨rest, rfl⟩ := List.head?_eq_some_iff.mp hHead
    rw [List.dropWhile_cons_of_pos (mem_nonzero.mp hc).1] at hUnit
    refine mem_mul.mpr ⟨[c], mem_oneOf.mpr ⟨c, hc, rfl⟩, rest, ?_, rfl⟩
    refine mem_mul.mpr ⟨_, mem_star_oneOf.mpr fun d hd => ?_, _, mem_unit.mpr hUnit,
      List.takeWhile_append_dropWhile⟩
    exact mem_digits.mpr (List.mem_takeWhile_imp hd)

theorem isAsciiDigit_lt (b : UInt8) (h : isAsciiDigit b = true) : b < 0x80 := by
  rw [isAsciiDigit, decide_eq_true_iff] at h
  exact UInt8.lt_of_le_of_lt h.2 (by decide)

theorem ascii_isAsciiDigit : ascii isAsciiDigit = Char.isDigit := by
  funext c
  rcases Nat.lt_or_ge c.toNat 128 with hAscii | hOther
  · have hAll : ∀ n < 128, ascii isAsciiDigit (Char.ofNat n) = (Char.ofNat n).isDigit := by decide
    exact forall_ascii (P := fun c => ascii isAsciiDigit c = c.isDigit) hAll hAscii
  · have hDigit : c.isDigit = false :=
      Bool.eq_false_iff.mpr fun h => absurd (isDigit_ascii h) (Nat.not_lt.mpr hOther)
    simp [ascii, Nat.not_lt.mpr hOther, hDigit]

theorem numberEnd_eq (bytes : List UInt8) (i : Nat) :
    numberEnd bytes i = i + (bytes.takeWhile isAsciiDigit).length := by
  induction bytes generalizing i with
  | nil => rfl
  | cons b rest ih =>
    rw [numberEnd, List.takeWhile_cons]
    split
    · rw [ih, List.length_cons]
      omega
    · rfl

theorem numberEnd_encode (text : List Char) :
    numberEnd (encode text) 0 = (encode (text.takeWhile Char.isDigit)).length := by
  rw [numberEnd_eq, takeWhile_encode isAsciiDigit_lt, ascii_isAsciiDigit, Nat.zero_add]

/-- So the slice starts at a character, whatever that is. -/
theorem sliceFrom_numberEnd (text : List Char) :
    sliceFrom (encode text) (numberEnd (encode text) 0) =
      some (encode (text.dropWhile Char.isDigit)) := by
  obtain ⟨digits, rest, hText, hDigits, hRest⟩ : ∃ digits rest, text = digits ++ rest ∧
      text.takeWhile Char.isDigit = digits ∧ text.dropWhile Char.isDigit = rest :=
    ⟨_, _, List.takeWhile_append_dropWhile.symm, rfl, rfl⟩
  rw [numberEnd_encode, hDigits, hRest, hText, sliceFrom, isCharBoundary_encode, if_pos rfl,
    encode_append, List.drop_left]

theorem encode_first (c : Char) (rest : List Char) : ∃ b bytes, encode (c :: rest) = b :: bytes ∧
    (isAsciiDigit b = true ∧ b ≠ 0x30 ↔ c ∈ NONZERO) := by
  rcases Nat.lt_or_ge c.toNat 128 with hAscii | hOther
  · have hAll : ∀ n < 128, isAsciiDigit (UInt8.ofNat (Char.ofNat n).toNat) = true ∧
        UInt8.ofNat (Char.ofNat n).toNat ≠ 0x30 ↔ Char.ofNat n ∈ NONZERO := by decide
    refine ⟨UInt8.ofNat c.toNat, encode rest, ?_, ?_⟩
    · rw [encode_cons, encodeChar_ascii hAscii, List.singleton_append]
    · exact forall_ascii (P := fun c => isAsciiDigit (UInt8.ofNat c.toNat) = true ∧
        UInt8.ofNat c.toNat ≠ 0x30 ↔ c ∈ NONZERO) hAll hAscii
  · obtain ⟨b, bytes, hBytes, hLead⟩ := encodeChar_other hOther
    refine ⟨b, bytes ++ encode rest, by rw [encode_cons, hBytes, List.cons_append], ?_⟩
    constructor
    · rintro ⟨hDigit, _⟩
      have hSmall := UInt8.lt_of_le_of_lt hLead (isAsciiDigit_lt b hDigit)
      exact absurd hSmall (by decide)
    · intro hc
      exact absurd (isDigit_ascii (mem_nonzero.mp hc).1) (Nat.not_lt.mpr hOther)

theorem encode_mem_units :
    encode text ∈ UNITS.map (fun unit => encode unit.toList) ↔ text ∈ UNITS.map String.toList := by
  simp only [List.mem_map, encode_injective.eq_iff]

theorem two_le_length (h : text ∈ PAGE_SIZE.matches') : 2 ≤ text.length := by
  have hUnits : ∀ u ∈ UNITS.map String.toList, 2 ≤ u.length := by decide
  exact Nat.le_trans (hUnits _ (mem_pageSize.mp h).2) (List.length_dropWhile_le _ _)

/-- The check is that of the grammar, and never panics. -/
theorem isValidHugepageSize_eq (s : String) :
    isValidHugepageSize s = some (decide (s.toList ∈ PAGE_SIZE.matches')) := by
  rw [isValidHugepageSize]
  generalize s.toList = text
  by_cases hShort : (encode text).length < 2
  · have hNot : text ∉ PAGE_SIZE.matches' := fun h => by
      have hTwo := Nat.le_trans (two_le_length h) (length_le_encode text)
      omega
    simp only [hShort, if_true, hNot, decide_false]
  · cases text with
    | nil => exact absurd (by decide) hShort
    | cons c rest =>
      obtain ⟨b, bytes, hBytes, hFirst⟩ := encode_first c rest
      have hGet : (encode (c :: rest))[0]? = some b := by rw [hBytes, List.getElem?_cons_zero]
      simp only [hShort, if_false, hGet, Option.bind_some, sliceFrom_numberEnd, Option.map_some]
      by_cases hNonzero : c ∈ NONZERO
      · obtain ⟨hDigit, hne⟩ := hFirst.mpr hNonzero
        have hEnd : numberEnd (encode (c :: rest)) 0 ≠ 0 := by
          rw [numberEnd_encode, List.takeWhile_cons_of_pos (mem_nonzero.mp hNonzero).1]
          have hLength := length_le_encode (c :: rest.takeWhile Char.isDigit)
          rw [List.length_cons] at hLength
          omega
        simp only [hDigit, hne, hEnd, Bool.not_true, Bool.false_or, decide_false,
          Bool.false_eq_true, if_false, encode_mem_units, mem_pageSize, List.head?_cons,
          Option.some_inj, exists_eq_right', hNonzero, true_and]
      · have hNot : c :: rest ∉ PAGE_SIZE.matches' := fun h => by
          obtain ⟨⟨d, hd, hHead⟩, _⟩ := mem_pageSize.mp h
          rw [Option.some.inj hHead] at hNonzero
          exact hNonzero hd
        have hFails : (!isAsciiDigit b || decide (b = 0x30)) = true := by
          by_contra hPasses
          rw [Bool.or_eq_true, Bool.not_eq_true', decide_eq_true_iff, not_or,
            Bool.not_eq_false] at hPasses
          exact hNonzero (hFirst.mp hPasses)
        simp only [hFails, if_true, hNot, decide_false]

/-- What is deserialized is the text as it was, or the error names it. -/
theorem deserializeHugepageSize_eq (s : String) : deserializeHugepageSize s =
    some (if s.toList ∈ PAGE_SIZE.matches' then .ok s else
      .error s!"invalid hugepage pageSize '{s}': must match ^[1-9][0-9]*[KMG]i?B$") := by
  rw [deserializeHugepageSize, isValidHugepageSize_eq, Option.map_some]
  simp only [decide_eq_true_iff]

end Dtrun.Oci
