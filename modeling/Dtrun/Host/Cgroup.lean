import Dtrun.Oci.Config
import Mathlib.Data.List.Forall2
import Mathlib.Logic.Function.Basic

/-! # The cgroup of a container

The directory that `setup_cgroup` finds for an id, and the weight that stands for a number of
shares.
-/
namespace Dtrun.Cgroup
set_option autoImplicit false
open Oci

/-- A directory, from the inside out. -/
abbrev Path := List String

def CGROUP_ROOT : Path := ["cgroup", "fs", "sys"]

/-- Where the kernel gets to from a directory with one more component. -/
def join (dir : Path) (name : String) : Path :=
  if name = "" ∨ name = "." then dir else if name = ".." then dir.tail else name :: dir

def isKept (c : Char) : Bool := c.isAlphanum ∨ c = '.' ∨ c = '-'

def sanitizeId (id : String) : String :=
  String.ofList (id.toList.map fun c => if isKept c then c else '_')

/-- `/sys/fs/cgroup/dtrun` -/
def parentDir : Path := join CGROUP_ROOT "dtrun"

def cgroupDir (id : String) : Path := join parentDir (sanitizeId id)

structure Isolated (id id' : String) : Prop where
  distinct : cgroupDir id ≠ cgroupDir id'
  child : ∃ name, cgroupDir id = name :: parentDir
  child' : ∃ name, cgroupDir id' = name :: parentDir

def Named (id : String) : Prop := id ≠ "" ∧ id ≠ "." ∧ id ≠ ".."

/-- The same characters, or at places where neither is kept. -/
def Alike (id id' : String) : Prop :=
  List.Forall₂ (fun c c' => c = c' ∨ isKept c = false ∧ isKept c' = false) id.toList id'.toList

variable {id id' : String}

theorem sanitizeId_toList :
    (sanitizeId id).toList = id.toList.map fun c => if isKept c then c else '_' :=
  String.toList_ofList

theorem sanitize_char_eq_iff (c c' : Char) :
    ((if isKept c then c else '_') = if isKept c' then c' else '_') ↔
      c = c' ∨ isKept c = false ∧ isKept c' = false := by
  have hUnderscore : isKept '_' = false := by decide
  by_cases hc : isKept c = true
  · by_cases hc' : isKept c' = true
    · simp [hc, hc']
    · have hne : c ≠ '_' := by
        rintro rfl
        exact absurd hc (by decide)
      have hne' : c ≠ c' := by
        rintro rfl
        exact hc' hc
      simp [hc, hc', hne, hne']
  · by_cases hc' : isKept c' = true
    · have hne : '_' ≠ c' := by
        rintro rfl
        exact absurd hc' (by decide)
      have hne' : c ≠ c' := by
        rintro rfl
        exact hc hc'
      simp [hc, hc', hne, hne']
    · simp [hc, hc']

theorem sanitizeId_eq_iff : sanitizeId id = sanitizeId id' ↔ Alike id id' := by
  have hForall : Alike id id' ↔ List.Forall₂ (· = ·)
      (id.toList.map fun c => if isKept c then c else '_')
      (id'.toList.map fun c => if isKept c then c else '_') := by
    rw [Alike, List.forall₂_map_left_iff, List.forall₂_map_right_iff]
    simp only [sanitize_char_eq_iff]
  rw [hForall, List.forall₂_eq_eq_eq, ← sanitizeId_toList, ← sanitizeId_toList,
    String.toList_inj]

theorem alike_of_kept (h : ∀ c ∈ id'.toList, isKept c = true) : Alike id id' ↔ id = id' := by
  rw [Alike, ← String.toList_inj, ← List.forall₂_eq_eq_eq]
  generalize id.toList = cs
  generalize id'.toList = cs' at h
  induction cs generalizing cs' with
  | nil => simp
  | cons c cs ih =>
    cases cs' with
    | nil => simp
    | cons c' cs' =>
      rw [List.forall_mem_cons] at h
      simp [h.1, ih cs' h.2]

/-- An id of characters that are kept is the only one for its name. -/
theorem sanitizeId_eq_self_iff (h : ∀ c ∈ id'.toList, isKept c = true) :
    sanitizeId id = id' ↔ id = id' := by
  have hSelf : sanitizeId id' = id' := by
    rw [← String.toList_inj, sanitizeId_toList]
    exact (List.map_congr_left fun c hc => if_pos (h c hc)).trans (List.map_id' _)
  rw [← @alike_of_kept id id' h, ← sanitizeId_eq_iff, hSelf]

theorem named_iff : Named id ↔
    sanitizeId id ≠ "" ∧ sanitizeId id ≠ "." ∧ sanitizeId id ≠ ".." := by
  have hDots : ∀ c ∈ "..".toList, isKept c = true := by simp [isKept]
  have hDot : ∀ c ∈ ".".toList, isKept c = true := by simp [isKept]
  rw [Named, Ne, Ne, Ne, Ne, Ne, Ne, sanitizeId_eq_self_iff (by simp),
    sanitizeId_eq_self_iff hDot, sanitizeId_eq_self_iff hDots]

theorem cgroupDir_named (h : Named id) : cgroupDir id = sanitizeId id :: parentDir := by
  obtain ⟨hEmpty, hDot, hDots⟩ := named_iff.mp h
  rw [cgroupDir, join, if_neg (by simp [hEmpty, hDot]), if_neg hDots]

/-- Other ids stand for the directory of the runtime or the one above it. -/
theorem child_iff : (∃ name, cgroupDir id = name :: parentDir) ↔ Named id := by
  constructor
  · rintro ⟨name, hDir⟩
    rw [named_iff]
    have hLength : (cgroupDir id).length = 5 := by
      rw [hDir]
      rfl
    refine ⟨fun h => ?_, fun h => ?_, fun h => ?_⟩
    · rw [cgroupDir, h] at hLength
      exact absurd hLength (by decide)
    · rw [cgroupDir, h] at hLength
      exact absurd hLength (by decide)
    · rw [cgroupDir, h] at hLength
      exact absurd hLength (by decide)
  · intro h
    exact ⟨sanitizeId id, cgroupDir_named h⟩

/-- Two containers have cgroups of their own exactly when both ids name an entry and they differ
somewhere else than in characters that are replaced. -/
theorem isolated_iff (id id' : String) :
    Isolated id id' ↔ Named id ∧ Named id' ∧ ¬ Alike id id' := by
  constructor
  · intro h
    have hNamed := child_iff.mp h.child
    have hNamed' := child_iff.mp h.child'
    refine ⟨hNamed, hNamed', fun hAlike => h.distinct ?_⟩
    rw [cgroupDir_named hNamed, cgroupDir_named hNamed', sanitizeId_eq_iff.mpr hAlike]
  · rintro ⟨hNamed, hNamed', hAlike⟩
    refine ⟨fun hSame => hAlike ?_, child_iff.mpr hNamed, child_iff.mpr hNamed'⟩
    rw [cgroupDir_named hNamed, cgroupDir_named hNamed'] at hSame
    exact sanitizeId_eq_iff.mp (List.cons.inj hSame).1

theorem not_isolated : ¬ ∀ id id' : String, id ≠ id' → Isolated id id' := by
  intro hAll
  have hSame : cgroupDir "web_1" = cgroupDir "web/1" := by decide +kernel
  exact (hAll "web_1" "web/1" (by decide)).distinct hSame

def saturatingSub (a b : UInt64) : UInt64 := if a < b then 0 else a - b

/-- OCI shares on the scale of cgroup v2. The product is taken in 64 bits. -/
def cpuWeight (shares : UInt64) : UInt64 := 1 + saturatingSub shares 2 * 9999 / 262142

structure Weighs (shares : UInt64) : Prop where
  /-- neither the product nor the sum overflows -/
  product : (saturatingSub shares 2).toNat * 9999 < 2 ^ 64
  sum : 1 + (saturatingSub shares 2 * 9999 / 262142).toNat < 2 ^ 64
  range : 1 ≤ (cpuWeight shares).toNat ∧ (cpuWeight shares).toNat ≤ 10000
  monotone : ∀ lower ≤ shares, cpuWeight lower ≤ cpuWeight shares
  least : cpuWeight 2 = 1
  most : cpuWeight 262144 = 10000

variable {shares : UInt64}

theorem saturatingSub_toNat : (saturatingSub shares 2).toNat = shares.toNat - 2 := by
  rw [saturatingSub]
  split
  · rename_i h
    have hSmall : shares.toNat < 2 := h
    rw [UInt64.toNat_zero]
    omega
  · rename_i h
    have hLarge : ¬ shares.toNat < 2 := h
    exact UInt64.toNat_sub_of_le _ _ (by rw [UInt64.le_iff_toNat_le]; exact Nat.not_lt.mp hLarge)

theorem quotient_toNat (h : (shares.toNat - 2) * 9999 < 2 ^ 64) :
    (saturatingSub shares 2 * 9999 / 262142).toNat = (shares.toNat - 2) * 9999 / 262142 := by
  have hProduct : (saturatingSub shares 2 * 9999).toNat = (shares.toNat - 2) * 9999 := by
    rw [UInt64.toNat_mul, saturatingSub_toNat]
    exact Nat.mod_eq_of_lt h
  rw [UInt64.toNat_div, hProduct]
  rfl

theorem cpuWeight_toNat (h : (shares.toNat - 2) * 9999 < 2 ^ 64) :
    (cpuWeight shares).toNat = 1 + (shares.toNat - 2) * 9999 / 262142 := by
  rw [cpuWeight, UInt64.toNat_add, quotient_toNat h]
  refine Nat.mod_eq_of_lt ?_
  change 1 + (shares.toNat - 2) * 9999 / 262142 < 2 ^ 64
  omega

/-- The weight is as it should be up to a little more than the largest OCI value. -/
theorem weighs_iff (shares : UInt64) : Weighs shares ↔ shares ≤ 262170 := by
  rw [UInt64.le_iff_toNat_le]
  change _ ↔ shares.toNat ≤ 262170
  constructor
  · intro h
    have hProduct := h.product
    rw [saturatingSub_toNat] at hProduct
    have hRange := h.range.2
    rw [cpuWeight_toNat hProduct] at hRange
    omega
  · intro h
    have hProduct : (shares.toNat - 2) * 9999 < 2 ^ 64 := by omega
    have hWeight := cpuWeight_toNat hProduct
    refine ⟨?_, ?_, ?_, fun lower hLower => ?_, by decide, by decide⟩
    · rwa [saturatingSub_toNat]
    · rw [quotient_toNat hProduct]
      omega
    · omega
    · rw [UInt64.le_iff_toNat_le] at hLower ⊢
      have hLess : (lower.toNat - 2) * 9999 ≤ (shares.toNat - 2) * 9999 :=
        Nat.mul_le_mul_right 9999 (Nat.sub_le_sub_right hLower 2)
      rw [hWeight, cpuWeight_toNat (Nat.lt_of_le_of_lt hLess hProduct)]
      exact Nat.add_le_add_left (Nat.div_le_div_right hLess) 1

/-- A value a little above what OCI allows. -/
theorem not_weighs : ¬ ∀ shares : UInt64, Weighs shares := by
  intro hAll
  exact absurd (hAll 300000).range.2 (by decide +kernel)

end Dtrun.Cgroup
