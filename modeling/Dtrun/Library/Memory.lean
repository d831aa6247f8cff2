import Mathlib.Tactic.Common
import Mathlib.Data.BitVec

/-! # Writing into the memory of another process

An address space is known by the addresses at which something is mapped. A write from outside goes
on until it meets an address where nothing is, and is short then; it fails only when not even its
first byte arrives.
-/
namespace Dtrun.Memory
set_option autoImplicit false

abbrev Address := BitVec 64

def EIO : Nat := 5
def EINVAL : Nat := 22

/-- `mapped` is where a write from outside arrives, whatever the protection; `writable` is where the
process may write itself. User addresses lie in the lower half. -/
structure Space where
  mapped : Address → Bool
  writable : Address → Bool
  mapped_of_writable : ∀ a, writable a = true → mapped a = true
  lower : ∀ a, mapped a = true → a.toNat < 2 ^ 63

/-- The length of the mapped run at `addr`, up to `n`. -/
def reach (mapped : Address → Bool) (addr : Address) : Nat → Nat
  | 0 => 0
  | n + 1 => if mapped addr then reach mapped (addr + 1) n + 1 else 0

namespace Space

variable {m : Space} {addr : Address} {n : Nat}

/-- The answer of `pwrite` on the memory file: the number of bytes that arrived. -/
def pwrite {β : Type} (m : Space) (addr : Address) (data : List β) : Except Nat Nat :=
  if 2 ^ 63 ≤ addr.toNat then .error EINVAL
  else if data = [] then .ok 0
  else
    let n := reach m.mapped addr data.length
    if n = 0 then .error EIO else .ok n

def Admits (m : Space) (addr : Address) (n : Nat) : Prop :=
  ∀ i < n, m.writable (addr + BitVec.ofNat 64 i) = true

def Covers (m : Space) (addr : Address) (n : Nat) : Prop :=
  ∀ i < n, m.mapped (addr + BitVec.ofNat 64 i) = true

instance : Decidable (m.Admits addr n) := inferInstanceAs (Decidable (∀ i < n, _))

instance : Decidable (m.Covers addr n) := inferInstanceAs (Decidable (∀ i < n, _))

theorem Admits.covers (h : m.Admits addr n) : m.Covers addr n :=
  fun i hi => m.mapped_of_writable _ (h i hi)

theorem covers_succ : m.Covers addr (n + 1) ↔ m.mapped addr = true ∧ m.Covers (addr + 1) n := by
  have hShift (i : Nat) : addr + BitVec.ofNat 64 (i + 1) = addr + 1 + BitVec.ofNat 64 i := by
    rw [BitVec.ofNat_add, BitVec.add_comm (BitVec.ofNat 64 i), BitVec.add_assoc]
    rfl
  constructor
  · intro h
    constructor
    · simpa using h 0 (by omega)
    · intro i hi
      rw [← hShift]
      exact h (i + 1) (by omega)
  · rintro ⟨hFirst, hRest⟩ i hi
    cases i with
    | zero => simpa using hFirst
    | succ i =>
      rw [hShift]
      exact hRest i (by omega)

theorem reach_le (m : Space) (addr : Address) (n : Nat) : reach m.mapped addr n ≤ n := by
  induction n generalizing addr with
  | zero => exact Nat.le_refl 0
  | succ n ih =>
    have hRest := ih (addr + 1)
    simp only [reach]
    split
    · omega
    · omega

theorem reach_eq_iff : reach m.mapped addr n = n ↔ m.Covers addr n := by
  induction n generalizing addr with
  | zero => simp [reach, Covers]
  | succ n ih =>
    rw [covers_succ, ← ih]
    simp only [reach]
    split
    · rename_i hFirst
      simp [hFirst]
    · rename_i hFirst
      simp [hFirst]

theorem reach_eq_zero (hPos : 0 < n) : reach m.mapped addr n = 0 ↔ m.mapped addr = false := by
  cases n with
  | zero => omega
  | succ n => simp [reach]

/-- A write of something arrives at least in part exactly where its first byte is mapped. -/
theorem pwrite_ok_iff {β : Type} {data : List β} (hData : data ≠ []) :
    m.pwrite addr data = .ok n ↔ m.mapped addr = true ∧ n = reach m.mapped addr data.length := by
  have hPos : 0 < data.length := List.length_pos_iff.mpr hData
  have hZero : reach m.mapped addr data.length = 0 ↔ m.mapped addr = false := reach_eq_zero hPos
  simp only [pwrite, if_neg hData]
  cases hFirst : m.mapped addr with
  | true =>
    have hLower := m.lower addr hFirst
    have hReach : reach m.mapped addr data.length ≠ 0 := by
      intro h
      have hFalse := hZero.mp h
      rw [hFirst] at hFalse
      cases hFalse
    rw [if_neg (by omega), if_neg hReach]
    simp [eq_comm]
  | false =>
    simp only [if_pos (hZero.mpr hFirst)]
    split
    · simp
    · simp

theorem pwrite_refused {β : Type} {data : List β} (hData : data ≠ [])
    (hFirst : m.mapped addr = false) : ∃ e, m.pwrite addr data = .error e := by
  cases hWrite : m.pwrite addr data with
  | ok n =>
    have hTrue := ((pwrite_ok_iff hData).mp hWrite).1
    rw [hFirst] at hTrue
    cases hTrue
  | error e => exact ⟨e, rfl⟩

end Space

end Dtrun.Memory
