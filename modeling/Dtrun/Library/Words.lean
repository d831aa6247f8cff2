import Mathlib.Data.BitVec

/-! # Operations on machine words that lose nothing

A word mixed with a shifted copy of itself, and a word times an odd constant, can be recovered: the
shifted copy agrees with the mixed word on the bits that the shift fills with zeros, and from there
every bit is decided by one that is known.
-/
namespace Dtrun.Words
set_option autoImplicit false

variable {w : Nat}

instance finite : Finite (BitVec w) := Finite.of_equiv (Fin (2 ^ w)) BitVec.equivFin.symm.toEquiv

theorem eq_zero_of_shiftLeft {d : BitVec w} {n : Nat} (hPos : 0 < n) (h : d = d <<< n) :
    d = 0#w := by
  apply BitVec.eq_of_getLsbD_eq
  intro i hi
  rw [BitVec.getLsbD_zero]
  -- From the lowest bit upwards: a bit is the one `n` places below it.
  induction i using Nat.strong_induction_on with
  | _ i ih =>
    rw [h, BitVec.getLsbD_shiftLeft]
    by_cases hLow : i < n
    · simp [hLow]
    · rw [ih (i - n) (by omega) (by omega)]
      simp

theorem eq_zero_of_ushiftRight {d : BitVec w} {n : Nat} (hPos : 0 < n) (h : d = d >>> n) :
    d = 0#w := by
  apply BitVec.eq_of_toNat_eq
  have hNat : d.toNat = d.toNat / 2 ^ n := by
    conv_lhs => rw [h]
    rw [BitVec.toNat_ushiftRight, Nat.shiftRight_eq_div_pow]
  by_contra hne
  have hTwo : 1 < 2 ^ n := Nat.one_lt_two_pow (by omega)
  have hLess : d.toNat / 2 ^ n < d.toNat :=
    Nat.div_lt_self (Nat.pos_of_ne_zero (by simpa using hne)) hTwo
  omega

theorem xor_eq_xor {x y a b : BitVec w} (h : x ^^^ a = y ^^^ b) : x ^^^ y = a ^^^ b := by
  calc x ^^^ y = (x ^^^ a) ^^^ a ^^^ y := by rw [BitVec.xor_assoc x, BitVec.xor_self, BitVec.xor_zero]
    _ = (y ^^^ b) ^^^ a ^^^ y := by rw [h]
    _ = y ^^^ (y ^^^ (a ^^^ b)) := by
      rw [BitVec.xor_comm _ y, BitVec.xor_assoc y b a, BitVec.xor_comm b a]
    _ = a ^^^ b := by rw [← BitVec.xor_assoc, BitVec.xor_self, BitVec.zero_xor]

theorem xor_shiftLeft_injective {n : Nat} (hPos : 0 < n) :
    Function.Injective fun x : BitVec w => x ^^^ (x <<< n) := by
  intro x y hEq
  have hDiff : x ^^^ y = (x ^^^ y) <<< n := by
    rw [BitVec.shiftLeft_xor_distrib]
    exact xor_eq_xor hEq
  exact BitVec.xor_eq_zero_iff.mp (eq_zero_of_shiftLeft hPos hDiff)

theorem xor_ushiftRight_injective {n : Nat} (hPos : 0 < n) :
    Function.Injective fun x : BitVec w => x ^^^ (x >>> n) := by
  intro x y hEq
  have hDiff : x ^^^ y = (x ^^^ y) >>> n := by
    rw [BitVec.ushiftRight_xor_distrib]
    exact xor_eq_xor hEq
  exact BitVec.xor_eq_zero_iff.mp (eq_zero_of_ushiftRight hPos hDiff)

theorem mul_injective {c inverse : BitVec w} (h : c * inverse = 1#w) :
    Function.Injective fun x : BitVec w => x * c := by
  intro x y hEq
  have hTimes : x * c * inverse = y * c * inverse := congrArg (· * inverse) hEq
  rwa [BitVec.mul_assoc, BitVec.mul_assoc, h, BitVec.mul_one, BitVec.mul_one] at hTimes

theorem append_halves (x : BitVec 64) : (x >>> 32).setWidth 32 ++ x.setWidth 32 = x := by
  ext i hi
  rw [BitVec.getElem_append]
  split
  · rw [BitVec.getElem_setWidth, BitVec.getLsbD_eq_getElem]
  · have hSum : 32 + (i - 32) = i := by omega
    rw [BitVec.getElem_setWidth, BitVec.getLsbD_ushiftRight, hSum, BitVec.getLsbD_eq_getElem]

section Bits

variable {x : BitVec w} {i j : Nat}

theorem getLsbD_or_bit (hi : i < w) :
    (x ||| 1#w <<< i).getLsbD j = true ↔ x.getLsbD j = true ∨ j = i := by
  rw [← BitVec.twoPow_eq, BitVec.getLsbD_or, BitVec.getLsbD_twoPow, Bool.or_eq_true,
    Bool.and_eq_true, decide_eq_true_iff, decide_eq_true_iff, and_iff_right hi, @eq_comm _ i]

theorem getLsbD_and_not_bit :
    (x &&& ~~~(1#w <<< i)).getLsbD j = true ↔ x.getLsbD j = true ∧ j ≠ i := by
  rw [← BitVec.twoPow_eq, BitVec.getLsbD_and, BitVec.getLsbD_not, BitVec.getLsbD_twoPow]
  by_cases hj : j < w
  · by_cases hEq : i = j
    · simp [hj, hEq]
    · simp [hj, hEq, Ne.symm hEq]
  · simp [BitVec.getLsbD_of_ge x j (by omega)]

theorem and_bit_eq_zero_iff : x &&& 1#w <<< i = 0#w ↔ x.getLsbD i = false := by
  rw [← BitVec.twoPow_eq, BitVec.and_twoPow]
  cases hBit : x.getLsbD i with
  | false => simp
  | true =>
    have hi : i < w := BitVec.lt_of_getLsbD hBit
    have hSelf : (BitVec.twoPow w i).getLsbD i = true := by simp [hi]
    simp only [if_true, Bool.true_eq_false, iff_false]
    intro hZero
    rw [hZero, BitVec.getLsbD_zero] at hSelf
    cases hSelf

theorem and_not_eq_zero_iff {y : BitVec w} :
    x &&& ~~~y = 0#w ↔ ∀ i, x.getLsbD i = true → y.getLsbD i = true := by
  constructor
  · intro h i hBit
    have hLow : i < w := BitVec.lt_of_getLsbD hBit
    have hZero : (x &&& ~~~y).getLsbD i = false := by rw [h, BitVec.getLsbD_zero]
    simpa [BitVec.getLsbD_and, BitVec.getLsbD_not, hBit, hLow] using hZero
  · intro h
    apply BitVec.eq_of_getLsbD_eq
    intro i hi
    rw [BitVec.getLsbD_zero, BitVec.getLsbD_and, BitVec.getLsbD_not]
    cases hBit : x.getLsbD i with
    | false => rfl
    | true => simp [h i hBit]

def lowest (w n : Nat) : BitVec w := (BitVec.allOnes n).setWidth w

theorem getLsbD_lowest {n : Nat} : (lowest w n).getLsbD i = true ↔ i < w ∧ i < n := by
  rw [lowest, BitVec.getLsbD_setWidth, BitVec.getLsbD_allOnes, Bool.and_eq_true,
    decide_eq_true_iff, decide_eq_true_iff]

end Bits

end Dtrun.Words
