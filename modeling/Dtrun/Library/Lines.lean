import Mathlib.Data.List.Basic

/-! # Lines of a stream

A stream is cut behind every separator; what comes after the last one is a line as well, if it is
not empty.
-/
namespace Dtrun.Lines
set_option autoImplicit false

variable {α : Type} [DecidableEq α] (sep : α)

def cut : List α → List α × List α
  | [] => ([], [])
  | b :: bs => if b = sep then ([b], bs) else (b :: (cut bs).1, (cut bs).2)

def lines : List α → List (List α)
  | [] => []
  | b :: bs =>
    if b = sep then [b] :: lines bs else
    match lines bs with
    | [] => [[b]]
    | line :: rest => (b :: line) :: rest

variable {sep} {b : α} {bs : List α}

theorem cut_append (s : List α) : (cut sep s).1 ++ (cut sep s).2 = s := by
  induction s with
  | nil => rfl
  | cons b bs ih =>
    rw [cut]
    split
    · rfl
    · rw [List.cons_append, ih]

theorem cut_fst_ne_nil : (cut sep (b :: bs)).1 ≠ [] := by
  rw [cut]
  split
  · exact List.cons_ne_nil b []
  · exact List.cons_ne_nil b _

theorem cut_fst_head? : (cut sep (b :: bs)).1.head? = some b := by
  rw [cut]
  split
  · rfl
  · rfl

theorem cut_line {s : List α} (h : sep ∉ s) (t : List α) :
    cut sep (s ++ sep :: t) = (s ++ [sep], t) := by
  induction s with
  | nil => simp [cut]
  | cons b s ih =>
    rw [List.mem_cons, not_or] at h
    rw [List.cons_append, cut, if_neg fun hEq => h.1 hEq.symm, ih h.2, List.cons_append]

theorem cut_snd_length_lt : (cut sep (b :: bs)).2.length < (b :: bs).length := by
  have hLength := congrArg List.length (@cut_append _ _ sep (b :: bs))
  have hFirst := List.length_pos_iff.mpr (@cut_fst_ne_nil _ _ sep b bs)
  rw [List.length_append] at hLength
  omega

/-- The lines are found one after the other. -/
theorem lines_cut : lines sep (b :: bs) =
    (cut sep (b :: bs)).1 :: lines sep (cut sep (b :: bs)).2 := by
  induction bs generalizing b with
  | nil =>
    rw [lines, cut]
    split
    · rfl
    · rfl
  | cons c bs ih =>
    rw [lines, cut]
    split
    · rfl
    · rw [ih]

theorem lines_of_not_mem (h : sep ∉ b :: bs) : lines sep (b :: bs) = [b :: bs] := by
  induction bs generalizing b with
  | nil =>
    rw [lines, if_neg fun hEq : b = sep => h (hEq ▸ List.mem_cons_self)]
    rfl
  | cons c bs ih =>
    rw [lines, if_neg fun hEq : b = sep => h (hEq ▸ List.mem_cons_self),
      ih fun hMem => h (List.mem_cons_of_mem b hMem)]

theorem flatten_lines (s : List α) : (lines sep s).flatten = s := by
  induction s with
  | nil => rfl
  | cons b bs ih =>
    rw [lines]
    split
    · rw [List.flatten_cons, ih, List.singleton_append]
    · cases hRest : lines sep bs with
      | nil => rw [← ih, hRest, List.flatten_nil, List.flatten_singleton]
      | cons line rest => rw [← ih, hRest, List.flatten_cons, List.flatten_cons, List.cons_append]

end Dtrun.Lines
