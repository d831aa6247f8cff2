import Mathlib.Data.List.Induction

/-! # First and last occurrences

What the first letter of a kind in a word decides, the last occurrence of one of two words in a
list, and what is overwritten along a list.
-/
namespace Dtrun.Occurrences
set_option autoImplicit false

variable {α : Type}

theorem append_prefix_iff {a : α} {l m r : List α} (hl : a ∉ l) (hm : a ∉ m) :
    l ++ [a] <+: m ++ a :: r ↔ l = m := by
  induction l generalizing m with
  | nil =>
    cases m with
    | nil => simp
    | cons x m =>
      rw [List.mem_cons, not_or] at hm
      simp [hm.1]
  | cons c l ih =>
    rw [List.mem_cons, not_or] at hl
    cases m with
    | nil => simp [Ne.symm hl.1]
    | cons x m =>
      rw [List.mem_cons, not_or] at hm
      rw [List.cons_append, List.cons_append, List.cons_prefix_cons, ih hl.2 hm.2, List.cons.injEq]

/-- What is overwritten along a list has the last value that it was given. -/
theorem foldl_overwrites {σ β : Type} {step : σ → α → σ} (read : σ → β) {given : α → Option β}
    (h : ∀ s x, read (step s x) = (given x).getD (read s)) (l : List α) (s : σ) :
    read (l.foldl step s) = (l.reverse.findSome? given).getD (read s) := by
  induction l using List.reverseRecOn with
  | nil => rfl
  | append_singleton l x ih =>
    rw [List.foldl_append, List.foldl_cons, List.foldl_nil, h, ih, List.reverse_concat,
      List.findSome?_cons]
    cases given x with
    | none => rfl
    | some v => rfl

variable [DecidableEq α] {on off : α}

def lastOf (on off : α) (l : List α) : Option α := l.reverse.find? fun x => x = on ∨ x = off

def afterLast (on : α) (l : List α) : List α := l.reverse.takeWhile (· ≠ on)

def toggle (on off : α) (b : Bool) (x : α) : Bool := if x = on then true else
  if x = off then false else b

theorem foldl_toggle (hne : off ≠ on) (l : List α) :
    l.foldl (toggle on off) false = true ↔ lastOf on off l = some on := by
  obtain ⟨r, rfl⟩ : ∃ r, l = r.reverse := ⟨l.reverse, l.reverse_reverse.symm⟩
  rw [List.foldl_reverse, lastOf, List.reverse_reverse]
  induction r with
  | nil => simp
  | cons x r ih =>
    rw [List.foldr_cons, List.find?_cons]
    by_cases hOn : x = on
    · simp [toggle, hOn]
    · by_cases hOff : x = off
      · simp [toggle, hOff, hne]
      · simpa [toggle, hOn, hOff] using ih

theorem lastOf_eq_some_iff (hne : off ≠ on) (l : List α) :
    lastOf on off l = some on ↔ on ∈ l ∧ off ∉ afterLast on l := by
  rw [lastOf, afterLast, ← List.mem_reverse]
  generalize l.reverse = r
  induction r with
  | nil => simp
  | cons x r ih =>
    rw [List.find?_cons, List.takeWhile_cons]
    by_cases hOn : x = on
    · simp [hOn]
    · by_cases hOff : x = off
      · simp [hOff, hne]
      · simpa [hOn, hOff, Ne.symm hOn, Ne.symm hOff] using ih

end Dtrun.Occurrences
