import Mathlib.Data.List.TakeWhile
import Dtrun.Library.Grammars
import Dtrun.Oci.Config

/-! # The version of a config

`parse_semver` cuts a version at its first hyphen or plus and reads three numbers in front of it.
When that is what the grammar of semantic versions makes of it.
-/
namespace Dtrun.Oci
set_option autoImplicit false
open Grammars Numerals RegularExpression

def LETTERS : List Char := "ABCDEFGHIJKLMNOPQRSTUVWXYZabcdefghijklmnopqrstuvwxyz".toList

/-- `[0-9A-Za-z-]+` -/
def IDENTIFIER : RegularExpression Char := many1 (oneOf ('-' :: DIGITS ++ LETTERS))

/-- `[-prerelease][+build]` -/
def SUFFIX : RegularExpression Char :=
  optional (char '-' * sepBy IDENTIFIER (char '.')) * optional (char '+' * sepBy IDENTIFIER (char '.'))

inductive Semver : List Char → Nat → Nat → Nat → Prop
  | version {major minor patch suffix : List Char} (hMajor : major ∈ NUMERAL.matches')
      (hMinor : minor ∈ NUMERAL.matches') (hPatch : patch ∈ NUMERAL.matches')
      (hSuffix : suffix ∈ SUFFIX.matches') :
      Semver (major ++ '.' :: (minor ++ '.' :: (patch ++ suffix)))
        (value major) (value minor) (value patch)

/-- The version is read and accepted as the grammar has it. -/
structure Conforms (config : OciConfig) : Prop where
  accepts : config.validateVersion = .ok () ↔
    ∃ major minor patch, Semver config.ociVersion.toList major minor patch ∧
      (major = 1 ∨ major = 0 ∧ minor = 5)
  parses : ∀ major minor patch, parseSemver config.ociVersion = some (major, minor, patch) ↔
    Semver config.ociVersion.toList major minor patch

/-- Three dotted numbers, with any zeros in front, and nothing or a suffix of any kind. -/
structure Dotted (text major minor patch suffix : List Char) : Prop where
  text_eq : text = major ++ '.' :: (minor ++ '.' :: (patch ++ suffix))
  digits : ∀ number ∈ [major, minor, patch], Digits number
  suffix : ∀ c ∈ suffix.head?, c = '-' ∨ c = '+'

/-- Where the text is three dotted numbers and a suffix, the numbers fit in their words exactly when
none has a zero in front and the suffix is one of the grammar. -/
def Settled (text : List Char) : Prop :=
  ∀ major minor patch suffix, Dotted text major minor patch suffix →
    ((∀ number ∈ [major, minor, patch], value number < 2 ^ 64) ↔
      (∀ number ∈ [major, minor, patch], number.head? = some '0' → number = ['0']) ∧
        suffix ∈ SUFFIX.matches')

variable {text major minor patch suffix s : List Char} {M m p n : Nat}

def inCore (c : Char) : Bool := c ≠ '-' ∧ c ≠ '+'

theorem isDigit_inCore {c : Char} (h : c.isDigit = true) : inCore c = true ∧ c ≠ '.' := by
  have hAll : DIGITS.all (fun d => inCore d && d ≠ '.') = true := by decide
  simpa using List.all_eq_true.mp hAll c (mem_digits.mpr h)

theorem suffix_head (h : s ∈ SUFFIX.matches') : ∀ c ∈ s.head?, c = '-' ∨ c = '+' := by
  obtain ⟨pre, hPre, build, hBuild, rfl⟩ := mem_mul.mp h
  rcases mem_optional.mp hPre with rfl | hPre
  · rcases mem_optional.mp hBuild with rfl | hBuild
    · simp
    · obtain ⟨_, hPlus, _, _, rfl⟩ := mem_mul.mp hBuild
      rw [mem_char.mp hPlus]
      simp
  · obtain ⟨_, hMinus, _, _, rfl⟩ := mem_mul.mp hPre
    rw [mem_char.mp hMinus]
    simp

theorem parseU64_eq_some (h : '+' ∉ s) :
    parseU64 s = some n ↔ (Digits s ∧ value s < 2 ^ 64) ∧ n = value s := by
  have hHead : s.head? ≠ some '+' := fun hHead => h (List.mem_of_head? hHead)
  have hValue : s.foldl (fun n c => 10 * n + (c.toNat - 48)) 0 = value s := rfl
  simp only [parseU64, hHead, if_false, hValue, Option.ite_none_right_eq_some,
    Option.some_inj, digits_iff, and_assoc, @eq_comm _ n]

theorem intercalate_three (a b c : List Char) :
    ['.'].intercalate [a, b, c] = a ++ '.' :: (b ++ '.' :: c) := by simp [List.intercalate]

namespace Dotted

variable (h : Dotted text major minor patch suffix)
include h

theorem mem_inCore : ∀ number ∈ [major, minor, patch], ∀ c ∈ number, inCore c = true ∧ c ≠ '.' :=
  fun number hNumber c hc => isDigit_inCore ((h.digits number hNumber).all c hc)

theorem cut : text.takeWhile inCore = ['.'].intercalate [major, minor, patch] ∧
    text.dropWhile inCore = suffix := by
  have hText : text = ['.'].intercalate [major, minor, patch] ++ suffix := by
    rw [intercalate_three, h.text_eq]
    simp only [List.append_assoc, List.cons_append]
  have hCore : ∀ c ∈ ['.'].intercalate [major, minor, patch], inCore c = true := by
    have hAll := h.mem_inCore
    simp only [List.forall_mem_cons, List.not_mem_nil] at hAll
    have hDot : inCore '.' = true := by decide
    simp only [intercalate_three, List.mem_append, List.mem_cons]
    rintro c (hc | rfl | hc | rfl | hc)
    · exact (hAll.1 c hc).1
    · exact hDot
    · exact (hAll.2.1 c hc).1
    · exact hDot
    · exact (hAll.2.2.1 c hc).1
  have hSuffix : suffix.takeWhile inCore = [] ∧ suffix.dropWhile inCore = suffix := by
    cases suffix with
    | nil => exact ⟨rfl, rfl⟩
    | cons c rest =>
      have hNot : ¬ inCore c = true := by
        rcases h.suffix c rfl with rfl | rfl
        · decide
        · decide
      exact ⟨List.takeWhile_cons_of_neg hNot, List.dropWhile_cons_of_neg hNot⟩
  rw [hText, List.takeWhile_append_of_pos hCore, List.dropWhile_append_of_pos hCore, hSuffix.1,
    hSuffix.2, List.append_nil]
  exact ⟨rfl, rfl⟩

theorem splitOn : (text.takeWhile inCore).splitOn '.' = [major, minor, patch] := by
  rw [h.cut.1]
  refine List.splitOn_intercalate '.' (fun number hNumber hDot => ?_) (List.cons_ne_nil _ _)
  exact (h.mem_inCore number hNumber '.' hDot).2 rfl

theorem unique {major' minor' patch' suffix' : List Char}
    (h' : Dotted text major' minor' patch' suffix') :
    major' = major ∧ minor' = minor ∧ patch' = patch ∧ suffix' = suffix := by
  have hNumbers := h'.splitOn.symm.trans h.splitOn
  simp only [List.cons.injEq, and_true] at hNumbers
  exact ⟨hNumbers.1, hNumbers.2.1, hNumbers.2.2, h'.cut.2.symm.trans h.cut.2⟩

end Dotted

section Parts

variable (hSplit : (text.takeWhile inCore).splitOn '.' = [major, minor, patch])
include hSplit

theorem core_of_splitOn : text.takeWhile inCore = major ++ '.' :: (minor ++ '.' :: patch) := by
  rw [← intercalate_three, ← hSplit, List.intercalate_splitOn]

theorem plus_not_mem : ∀ number ∈ [major, minor, patch], '+' ∉ number := by
  intro number hNumber hMem
  have hIn : '+' ∈ text.takeWhile inCore := by
    rw [core_of_splitOn hSplit]
    simp only [List.mem_cons, List.not_mem_nil, or_false] at hNumber
    rcases hNumber with rfl | rfl | rfl
    · simp [hMem]
    · simp [hMem]
    · simp [hMem]
  exact absurd (List.mem_takeWhile_imp hIn) (by decide)

theorem dotted_of_splitOn (hDigits : ∀ number ∈ [major, minor, patch], Digits number) :
    Dotted text major minor patch (text.dropWhile inCore) where
  text_eq := calc
    text = text.takeWhile inCore ++ text.dropWhile inCore :=
      List.takeWhile_append_dropWhile.symm
    _ = _ := by rw [core_of_splitOn hSplit]; simp only [List.append_assoc, List.cons_append]
  digits := hDigits
  suffix c hc := by
    have hNot := List.head?_dropWhile_not inCore text
    rw [hc] at hNot
    by_contra hOther
    rw [not_or] at hOther
    simp [inCore, hOther] at hNot

end Parts

/-- Three dotted numbers are read, whatever stands behind them, if they fit. -/
theorem parseSemver_eq_some {v : String} : parseSemver v = some (M, m, p) ↔
    ∃ major minor patch suffix, Dotted v.toList major minor patch suffix ∧
      (∀ number ∈ [major, minor, patch], value number < 2 ^ 64) ∧
      M = value major ∧ m = value minor ∧ p = value patch := by
  have hCore : (v.toList.takeWhile fun c => c ≠ '-' ∧ c ≠ '+') = v.toList.takeWhile inCore := rfl
  rw [parseSemver, hCore]
  constructor
  · intro h
    split at h
    · rename_i major minor patch hSplit
      have hPlus := plus_not_mem hSplit
      obtain ⟨_, hMajor, h⟩ := Option.bind_eq_some_iff.mp h
      obtain ⟨_, hMinor, h⟩ := Option.bind_eq_some_iff.mp h
      obtain ⟨_, hPatch, h⟩ := Option.bind_eq_some_iff.mp h
      cases h
      rw [parseU64_eq_some (hPlus _ (by simp))] at hMajor hMinor hPatch
      refine ⟨major, minor, patch, _, dotted_of_splitOn hSplit ?_, ?_, hMajor.2, hMinor.2,
        hPatch.2⟩
      · simpa using ⟨hMajor.1.1, hMinor.1.1, hPatch.1.1⟩
      · simpa using ⟨hMajor.1.2, hMinor.1.2, hPatch.1.2⟩
    · cases h
  · rintro ⟨major, minor, patch, suffix, hDotted, hFits, rfl, rfl, rfl⟩
    have hRead : ∀ number ∈ [major, minor, patch], parseU64 number = some (value number) := by
      intro number hNumber
      refine (parseU64_eq_some (plus_not_mem hDotted.splitOn number hNumber)).mpr ?_
      exact ⟨⟨hDotted.digits number hNumber, hFits number hNumber⟩, rfl⟩
    rw [hDotted.splitOn]
    simp only [hRead major (by simp), hRead minor (by simp), hRead patch (by simp)]
    rfl

theorem semver_iff : Semver text M m p ↔
    ∃ major minor patch suffix, Dotted text major minor patch suffix ∧
      ((∀ number ∈ [major, minor, patch], number.head? = some '0' → number = ['0']) ∧
        suffix ∈ SUFFIX.matches') ∧
      M = value major ∧ m = value minor ∧ p = value patch := by
  constructor
  · rintro ⟨hMajor, hMinor, hPatch, hSuffix⟩
    rw [mem_numeral] at hMajor hMinor hPatch
    refine ⟨_, _, _, _, ⟨rfl, ?_, suffix_head hSuffix⟩, ⟨?_, hSuffix⟩, rfl, rfl, rfl⟩
    · simpa using ⟨hMajor.1, hMinor.1, hPatch.1⟩
    · simpa using ⟨hMajor.2, hMinor.2, hPatch.2⟩
  · rintro ⟨major, minor, patch, suffix, hDotted, ⟨hZero, hSuffix⟩, rfl, rfl, rfl⟩
    have hNumeral : ∀ number ∈ [major, minor, patch], number ∈ NUMERAL.matches' :=
      fun number hNumber =>
        mem_numeral.mpr ⟨hDotted.digits number hNumber, hZero number hNumber⟩
    rw [hDotted.text_eq]
    exact .version (hNumeral major (by simp)) (hNumeral minor (by simp)) (hNumeral patch (by simp))
      hSuffix

theorem validateVersion_ok_iff {config : OciConfig} : config.validateVersion = .ok () ↔
    ∃ major minor patch, parseSemver config.ociVersion = some (major, minor, patch) ∧
      (major = 1 ∨ major = 0 ∧ minor = 5) := by
  rw [OciConfig.validateVersion]
  split
  · rename_i hEmpty
    have hNone : parseSemver "" = none := by decide
    simp [hEmpty, hNone]
  · split
    · rename_i hNone
      simp [hNone]
    · rename_i major minor patch hSome
      simp only [hSome, Option.some_inj, Prod.mk.injEq, compatibleVersion, decide_eq_true_iff]
      constructor
      · intro h
        split at h
        · exact ⟨major, minor, patch, ⟨rfl, rfl, rfl⟩, ‹_›⟩
        · cases h
      · rintro ⟨_, _, _, ⟨rfl, rfl, rfl⟩, hCompatible⟩
        rw [if_pos hCompatible]

/-- Three dotted numbers that fit must be in the grammar, and those in the grammar must fit; about
any other text the code and the grammar agree. -/
theorem conforms_iff (config : OciConfig) :
    Conforms config ↔ Settled config.ociVersion.toList := by
  constructor
  · intro h major minor patch suffix hDotted
    have hParses := h.parses (value major) (value minor) (value patch)
    rw [parseSemver_eq_some, semver_iff] at hParses
    constructor
    · intro hFits
      obtain ⟨_, _, _, _, hDotted', hWell, _⟩ :=
        hParses.mp ⟨major, minor, patch, suffix, hDotted, hFits, rfl, rfl, rfl⟩
      obtain ⟨rfl, rfl, rfl, rfl⟩ := hDotted.unique hDotted'
      exact hWell
    · intro hWell
      obtain ⟨_, _, _, _, hDotted', hFits, _⟩ :=
        hParses.mpr ⟨major, minor, patch, suffix, hDotted, hWell, rfl, rfl, rfl⟩
      obtain ⟨rfl, rfl, rfl, rfl⟩ := hDotted.unique hDotted'
      exact hFits
  · intro h
    have hParses : ∀ major minor patch,
        parseSemver config.ociVersion = some (major, minor, patch) ↔
          Semver config.ociVersion.toList major minor patch := by
      intro M m p
      rw [parseSemver_eq_some, semver_iff]
      constructor
      · rintro ⟨major, minor, patch, suffix, hDotted, hFits, hValues⟩
        exact ⟨major, minor, patch, suffix, hDotted, (h _ _ _ _ hDotted).mp hFits, hValues⟩
      · rintro ⟨major, minor, patch, suffix, hDotted, hWell, hValues⟩
        exact ⟨major, minor, patch, suffix, hDotted, (h _ _ _ _ hDotted).mpr hWell, hValues⟩
    refine ⟨?_, hParses⟩
    rw [validateVersion_ok_iff]
    simp only [hParses]

/-- A suffix is cut off and not looked at. -/
theorem not_conforms : ¬ Conforms { ociVersion := "1.0.0-", root := { path := "rootfs" } } := by
  intro h
  have hRead : parseSemver "1.0.0-" = some (1, 0, 0) := by decide
  obtain ⟨_, _, _, _, hDotted, ⟨_, hSuffix⟩, _⟩ := semver_iff.mp ((h.parses 1 0 0).mp hRead)
  have hEmpty : Dotted "1.0.0-".toList ['1'] ['0'] ['0'] ['-'] :=
    ⟨by decide, by decide, by simp⟩
  obtain ⟨_, _, _, rfl⟩ := hEmpty.unique hDotted
  exact absurd hSuffix (by decide)

end Dtrun.Oci
