import Mathlib.Data.List.Basic

/-! # Signed decimal numerals

What is read as an integer of a bounded range: one sign at most, then digits and nothing else. A
value out of the range is refused, and so is a text without digits.
-/
namespace Dtrun.Numerals
set_option autoImplicit false

structure Digits (text : List Char) : Prop where
  nonempty : text ≠ []
  all : ∀ c ∈ text, c.isDigit = true

theorem digits_iff {text : List Char} :
    Digits text ↔ text ≠ [] ∧ text.all Char.isDigit = true :=
  ⟨fun h => ⟨h.nonempty, List.all_eq_true.mpr h.all⟩, fun h => ⟨h.1, List.all_eq_true.mp h.2⟩⟩

instance (text : List Char) : Decidable (Digits text) := decidable_of_iff' _ digits_iff

def value (digits : List Char) : Nat := Nat.ofDigitChars 10 digits 0

def splitSign : List Char → Bool × List Char
  | '-' :: rest => (true, rest)
  | '+' :: rest => (false, rest)
  | text => (false, text)

def parseInt (lo hi : Int) (text : List Char) : Option Int :=
  let (negative, digits) := splitSign text
  if Digits digits then
    let n : Int := if negative then -value digits else value digits
    if lo ≤ n ∧ n ≤ hi then some n else none
  else none

variable {lo hi n : Int} {text digits : List Char} {c : Char}

theorem digit_bounds (h : c.isDigit = true) : 48 ≤ c.toNat ∧ c.toNat ≤ 57 := by
  obtain ⟨hLow, hHigh⟩ := Bool.and_eq_true_iff.mp h
  exact ⟨of_decide_eq_true hLow, of_decide_eq_true hHigh⟩

theorem alpha_bounds (h : c.isAlpha = true) : 65 ≤ c.toNat ∧ c.toNat ≤ 122 := by
  rcases Bool.or_eq_true_iff.mp h with hUpper | hLower
  · have hRange : c.val ≥ 'A'.val ∧ c.val ≤ 'Z'.val := of_decide_eq_true hUpper
    exact ⟨hRange.1, Nat.le_trans hRange.2 (by decide)⟩
  · obtain ⟨hLow, hHigh⟩ := Bool.and_eq_true_iff.mp hLower
    exact ⟨Nat.le_trans (by decide) (of_decide_eq_true hLow), of_decide_eq_true hHigh⟩

theorem isDigit_ne_sign (h : c.isDigit = true) : c ≠ '-' ∧ c ≠ '+' := by
  constructor
  · rintro rfl
    exact absurd h (by decide)
  · rintro rfl
    exact absurd h (by decide)

theorem splitSign_of_head (h : ∀ c ∈ text.head?, c ≠ '-' ∧ c ≠ '+') :
    splitSign text = (false, text) := by
  unfold splitSign
  split
  · exact absurd rfl (h '-' rfl).1
  · exact absurd rfl (h '+' rfl).2
  · rfl

theorem splitSign_digits (h : Digits digits) : splitSign digits = (false, digits) :=
  splitSign_of_head fun c hc => isDigit_ne_sign (h.all c (List.mem_of_mem_head? hc))

theorem splitSign_cases (text : List Char) :
    (∃ digits, text = '-' :: digits ∧ splitSign text = (true, digits)) ∨
      ∃ digits, (text = digits ∨ text = '+' :: digits) ∧ splitSign text = (false, digits) := by
  unfold splitSign
  split
  · exact .inl ⟨_, rfl, rfl⟩
  · exact .inr ⟨_, .inr rfl, rfl⟩
  · exact .inr ⟨_, .inl rfl, rfl⟩

theorem parseInt_of_splitSign {negative : Bool} (hSign : splitSign text = (negative, digits)) :
    parseInt lo hi text = some n ↔ Digits digits ∧ lo ≤ n ∧ n ≤ hi ∧
      n = if negative then -(value digits : Int) else value digits := by
  rw [parseInt, hSign]
  by_cases hDigits : Digits digits
  · simp only [hDigits, if_true, true_and, Option.ite_none_right_eq_some, Option.some_inj]
    constructor
    · rintro ⟨⟨hLow, hHigh⟩, rfl⟩
      exact ⟨hLow, hHigh, rfl⟩
    · rintro ⟨hLow, hHigh, rfl⟩
      exact ⟨⟨hLow, hHigh⟩, rfl⟩
  · simp [hDigits]

theorem parseInt_eq_some_iff : parseInt lo hi text = some n ↔ lo ≤ n ∧ n ≤ hi ∧
    ∃ digits, Digits digits ∧
      ((text = digits ∨ text = '+' :: digits) ∧ n = value digits ∨
        text = '-' :: digits ∧ n = -value digits) := by
  constructor
  · intro h
    rcases splitSign_cases text with ⟨digits, hText, hSign⟩ | ⟨digits, hText, hSign⟩
    · obtain ⟨hDigits, hLow, hHigh, hn⟩ := (parseInt_of_splitSign hSign).mp h
      exact ⟨hLow, hHigh, digits, hDigits, .inr ⟨hText, hn⟩⟩
    · obtain ⟨hDigits, hLow, hHigh, hn⟩ := (parseInt_of_splitSign hSign).mp h
      exact ⟨hLow, hHigh, digits, hDigits, .inl ⟨hText, hn⟩⟩
  · rintro ⟨hLow, hHigh, digits, hDigits, ⟨rfl | rfl, hn⟩ | ⟨rfl, hn⟩⟩
    · exact (parseInt_of_splitSign (splitSign_digits hDigits)).mpr ⟨hDigits, hLow, hHigh, hn⟩
    · exact (parseInt_of_splitSign rfl).mpr ⟨hDigits, hLow, hHigh, hn⟩
    · exact (parseInt_of_splitSign rfl).mpr ⟨hDigits, hLow, hHigh, hn⟩

theorem parseInt_chars (h : parseInt lo hi text = some n) (hc : c ∈ text) :
    c.isDigit = true ∨ c = '-' ∨ c = '+' := by
  obtain ⟨_, _, digits, hDigits, hText⟩ := parseInt_eq_some_iff.mp h
  rcases hText with ⟨rfl | rfl, _⟩ | ⟨rfl, _⟩
  · exact .inl (hDigits.all c hc)
  · rcases List.mem_cons.mp hc with hSign | hDigit
    · exact .inr (.inr hSign)
    · exact .inl (hDigits.all c hDigit)
  · rcases List.mem_cons.mp hc with hSign | hDigit
    · exact .inr (.inl hSign)
    · exact .inl (hDigits.all c hDigit)

theorem digits_toDigits (m : Nat) : Digits (Nat.toDigits 10 m) :=
  ⟨Nat.toDigits_ne_nil, fun _ hc => Nat.isDigit_of_mem_toDigits (by decide) (by decide) hc⟩

theorem value_toDigits (m : Nat) : value (Nat.toDigits 10 m) = m :=
  Nat.ofDigitChars_ten_toDigits

/-- What is printed is read back. -/
theorem parseInt_toString (hLow : lo ≤ n) (hHigh : n ≤ hi) :
    parseInt lo hi (toString n).toList = some n := by
  refine parseInt_eq_some_iff.mpr ⟨hLow, hHigh, ?_⟩
  cases n with
  | ofNat m =>
    refine ⟨_, digits_toDigits m, .inl ⟨.inl ?_, ?_⟩⟩
    · exact Nat.toList_repr
    · rw [value_toDigits, Int.ofNat_eq_natCast]
  | negSucc m =>
    refine ⟨_, digits_toDigits (m + 1), .inr ⟨?_, ?_⟩⟩
    · change ("-" ++ Nat.repr (m + 1)).toList = _
      rw [String.toList_append, Nat.toList_repr]
      rfl
    · rw [value_toDigits, Int.negSucc_eq, Int.natCast_succ]

end Dtrun.Numerals
