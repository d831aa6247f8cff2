import Mathlib.Computability.RegularExpressions
import Dtrun.Library.Numerals

/-! # Grammars of words

Regular expressions over classes of characters, and which words the usual ones match: one of a
class, a word of it, a decimal number.
-/
namespace Dtrun.Grammars
set_option autoImplicit false
open Numerals (Digits)
open RegularExpression

variable {α : Type} {a : α} {w : List α} {cs : List α} {r s : RegularExpression α}

def oneOf : List α → RegularExpression α
  | [] => 0
  | c :: cs => char c + oneOf cs

def optional (r : RegularExpression α) : RegularExpression α := 1 + r

def many1 (r : RegularExpression α) : RegularExpression α := r * star r

def sepBy (r sep : RegularExpression α) : RegularExpression α := r * star (sep * r)

theorem mem_char : w ∈ (char a).matches' ↔ w = [a] := Iff.rfl

theorem mem_mul : w ∈ (r * s).matches' ↔ ∃ u ∈ r.matches', ∃ v ∈ s.matches', u ++ v = w :=
  Language.mem_mul

theorem mem_oneOf : w ∈ (oneOf cs).matches' ↔ ∃ c ∈ cs, w = [c] := by
  induction cs with
  | nil =>
    constructor
    · intro h
      exact absurd h (Language.notMem_zero w)
    · rintro ⟨c, hc, _⟩
      cases hc
  | cons c cs ih =>
    rw [oneOf, matches'_add, Language.mem_add, mem_char, ih]
    simp

theorem mem_optional : w ∈ (optional r).matches' ↔ w = [] ∨ w ∈ r.matches' := by
  rw [optional, matches'_add, Language.mem_add]
  exact or_congr_left (Language.mem_one w)

theorem mem_star_oneOf : w ∈ (star (oneOf cs)).matches' ↔ ∀ c ∈ w, c ∈ cs := by
  rw [matches'_star, Language.mem_kstar]
  constructor
  · rintro ⟨words, rfl, hWords⟩ c hc
    obtain ⟨word, hWord, hc⟩ := List.mem_flatten.mp hc
    obtain ⟨d, hd, rfl⟩ := mem_oneOf.mp (hWords word hWord)
    rw [List.mem_singleton.mp hc]
    exact hd
  · intro h
    refine ⟨w.map fun c => [c], by rw [← List.flatMap_def, List.flatMap_singleton'], ?_⟩
    simp only [List.forall_mem_map]
    exact fun c hc => mem_oneOf.mpr ⟨c, h c hc, rfl⟩

theorem mem_many1_oneOf : w ∈ (many1 (oneOf cs)).matches' ↔ w ≠ [] ∧ ∀ c ∈ w, c ∈ cs := by
  rw [many1, mem_mul]
  constructor
  · rintro ⟨_, hFirst, rest, hRest, rfl⟩
    obtain ⟨c, hc, rfl⟩ := mem_oneOf.mp hFirst
    exact ⟨List.cons_ne_nil _ _, List.forall_mem_cons.mpr ⟨hc, mem_star_oneOf.mp hRest⟩⟩
  · rintro ⟨hNonempty, hAll⟩
    obtain ⟨c, rest, rfl⟩ := List.exists_cons_of_ne_nil hNonempty
    rw [List.forall_mem_cons] at hAll
    exact ⟨[c], mem_oneOf.mpr ⟨c, hAll.1, rfl⟩, rest, mem_star_oneOf.mpr hAll.2, rfl⟩

def NONZERO : List Char := ['1', '2', '3', '4', '5', '6', '7', '8', '9']

def DIGITS : List Char := '0' :: NONZERO

def NUMERAL : RegularExpression Char := char '0' + oneOf NONZERO * star (oneOf DIGITS)

section Digits

variable {c : Char} {text : List Char}

/-- What holds of the first 128 characters holds of every ASCII character. -/
theorem forall_ascii {P : Char → Prop} (h : ∀ n < 128, P (Char.ofNat n)) (hc : c.toNat < 128) :
    P c := by
  rw [← Char.ofNat_toNat c]
  exact h c.toNat hc

theorem isDigit_ascii (h : c.isDigit = true) : c.toNat < 128 := by
  rw [Char.isDigit, Bool.and_eq_true, decide_eq_true_iff, decide_eq_true_iff] at h
  exact Nat.lt_of_le_of_lt h.2 (by decide)

theorem mem_digits : c ∈ DIGITS ↔ c.isDigit = true := by
  constructor
  · have hAll : DIGITS.all Char.isDigit = true := by decide
    exact List.all_eq_true.mp hAll c
  · intro h
    have hAll : ∀ n < 128, (Char.ofNat n).isDigit = true → Char.ofNat n ∈ DIGITS := by decide
    exact forall_ascii (P := fun c => c.isDigit = true → c ∈ DIGITS) hAll (isDigit_ascii h) h

theorem mem_nonzero : c ∈ NONZERO ↔ c.isDigit = true ∧ c ≠ '0' := by
  rw [← mem_digits, DIGITS, List.mem_cons]
  constructor
  · intro h
    refine ⟨.inr h, ?_⟩
    rintro rfl
    exact absurd h (by decide)
  · rintro ⟨hZero | hMem, hne⟩
    · exact absurd hZero hne
    · exact hMem

theorem mem_numeral : text ∈ NUMERAL.matches' ↔
    Digits text ∧ (text.head? = some '0' → text = ['0']) := by
  rw [NUMERAL, matches'_add, Language.mem_add, mem_char]
  constructor
  · rintro (rfl | h)
    · exact ⟨by decide, fun _ => rfl⟩
    · obtain ⟨_, hFirst, digits, hDigits, rfl⟩ := mem_mul.mp h
      obtain ⟨c, hc, rfl⟩ := mem_oneOf.mp hFirst
      obtain ⟨hDigit, hne⟩ := mem_nonzero.mp hc
      refine ⟨⟨List.cons_ne_nil _ _, List.forall_mem_cons.mpr ⟨hDigit, fun d hd => ?_⟩⟩, ?_⟩
      · exact mem_digits.mp (mem_star_oneOf.mp hDigits d hd)
      · intro hHead
        exact absurd (Option.some.inj hHead) hne
  · rintro ⟨⟨hNonempty, hAll⟩, hZero⟩
    obtain ⟨c, digits, rfl⟩ := List.exists_cons_of_ne_nil hNonempty
    rw [List.forall_mem_cons] at hAll
    rcases eq_or_ne c '0' with rfl | hne
    · exact .inl (hZero rfl)
    · refine .inr (mem_mul.mpr ⟨[c], mem_oneOf.mpr ⟨c, mem_nonzero.mpr ⟨hAll.1, hne⟩, rfl⟩, digits,
        mem_star_oneOf.mpr fun d hd => mem_digits.mpr (hAll.2 d hd), rfl⟩)

end Digits

end Dtrun.Grammars
