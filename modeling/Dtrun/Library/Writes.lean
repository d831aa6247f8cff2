import Mathlib.Data.List.Perm.Basic
import Mathlib.Logic.Function.Basic

/-! # Writes up to the first refusal

Entries of which each is refused or goes to a file, where it replaces what was there. When the order
of the entries does not matter.
-/
namespace Dtrun.Writes
set_option autoImplicit false

variable {ε φ β : Type} [DecidableEq φ] {target : ε → Option φ} {value : ε → β} {l : List ε}
  {f : φ → β}

/-- What the files hold afterwards, and whether nothing was refused. -/
def writeAll (target : ε → Option φ) (value : ε → β) : List ε → (φ → β) → (φ → β) × Bool
  | [], f => (f, true)
  | e :: rest, f =>
    match target e with
    | none => (f, false)
    | some p => writeAll target value rest (Function.update f p (value e))

theorem writeAll_refused {e : ε} (h : target e = none) (rest : List ε) (f : φ → β) :
    writeAll target value (e :: rest) f = (f, false) := by
  simp only [writeAll, h]

theorem writeAll_accepted {e : ε} {p : φ} (h : target e = some p) (rest : List ε) (f : φ → β) :
    writeAll target value (e :: rest) f =
      writeAll target value rest (Function.update f p (value e)) := by
  simp only [writeAll, h]

theorem writeAll_concat {e : ε} {p : φ} (hAll : ∀ e ∈ l, target e ≠ none) (h : target e = some p)
    (f : φ → β) : (writeAll target value (l ++ [e]) f).1 p = value e := by
  induction l generalizing f with
  | nil =>
    rw [List.nil_append, writeAll_accepted h]
    exact Function.update_self _ _ _
  | cons d rest ih =>
    rw [List.forall_mem_cons] at hAll
    obtain ⟨q, hq⟩ := Option.ne_none_iff_exists'.mp hAll.1
    rw [List.cons_append, writeAll_accepted hq]
    exact ih hAll.2 _

theorem writeAll_value (hAll : ∀ e ∈ l, target e ≠ none) (f : φ → β) :
    (writeAll target value l f).2 = true ∧ ∀ p,
      (∃ e ∈ l, target e = some p ∧ (writeAll target value l f).1 p = value e) ∨
        (∀ e ∈ l, target e ≠ some p) ∧ (writeAll target value l f).1 p = f p := by
  induction l generalizing f with
  | nil => exact ⟨rfl, fun p => .inr ⟨(fun e he => by cases he), rfl⟩⟩
  | cons d rest ih =>
    rw [List.forall_mem_cons] at hAll
    obtain ⟨q, hq⟩ := Option.ne_none_iff_exists'.mp hAll.1
    rw [writeAll_accepted hq]
    obtain ⟨hDone, hValue⟩ := ih hAll.2 (Function.update f q (value d))
    refine ⟨hDone, fun p => ?_⟩
    rcases hValue p with ⟨e, he, hTarget, hHolds⟩ | ⟨hNone, hHolds⟩
    · exact .inl ⟨e, List.mem_cons_of_mem d he, hTarget, hHolds⟩
    · rcases eq_or_ne p q with rfl | hne
      · rw [Function.update_self] at hHolds
        exact .inl ⟨d, List.mem_cons_self, hq, hHolds⟩
      · rw [Function.update_of_ne hne] at hHolds
        refine .inr ⟨List.forall_mem_cons.mpr ⟨fun hSome => hne ?_, hNone⟩, hHolds⟩
        exact (Option.some.inj (hq.symm.trans hSome)).symm

theorem writeAll_idle (h : ∀ e ∈ l, ∀ p ∈ target e, f p = value e) :
    (writeAll target value l f).1 = f ∧
      ((writeAll target value l f).2 = true ↔ ∀ e ∈ l, target e ≠ none) := by
  induction l with
  | nil => simp [writeAll]
  | cons d rest ih =>
    rw [List.forall_mem_cons] at h
    cases hTarget : target d with
    | none =>
      rw [writeAll_refused hTarget]
      simp [hTarget]
    | some q =>
      rw [writeAll_accepted hTarget, ← h.1 q hTarget, Function.update_eq_self]
      simpa [hTarget] using ih h.2

/-- Nothing is refused and entries for one file agree, or something is refused and the other entries
write what is there. -/
def Orderless (target : ε → Option φ) (value : ε → β) (l : List ε) (f : φ → β) : Prop :=
  ((∀ e ∈ l, target e ≠ none) ∧
      ∀ e ∈ l, ∀ e' ∈ l, target e = target e' → value e = value e') ∨
    (∃ e ∈ l, target e = none) ∧ ∀ e ∈ l, ∀ p ∈ target e, f p = value e

theorem Orderless.writeAll_eq {l₁ l₂ : List ε} (h : Orderless target value l f) (h₁ : l₁.Perm l)
    (h₂ : l₂.Perm l) : writeAll target value l₁ f = writeAll target value l₂ f := by
  rcases h with ⟨hAll, hAgree⟩ | ⟨⟨r, hr, hNone⟩, hIdle⟩
  · obtain ⟨hDone₁, hValue₁⟩ := writeAll_value (fun e he => hAll e (h₁.mem_iff.mp he)) f
    obtain ⟨hDone₂, hValue₂⟩ := writeAll_value (fun e he => hAll e (h₂.mem_iff.mp he)) f
    refine Prod.ext (funext fun p => ?_) (hDone₁.trans hDone₂.symm)
    rcases hValue₁ p with ⟨e, he, hTarget, hHolds⟩ | ⟨hNone, hHolds⟩
    · rcases hValue₂ p with ⟨e', he', hTarget', hHolds'⟩ | ⟨hNone', _⟩
      · rw [hHolds, hHolds']
        exact hAgree e (h₁.mem_iff.mp he) e' (h₂.mem_iff.mp he') (hTarget.trans hTarget'.symm)
      · exact absurd hTarget (hNone' e (h₂.mem_iff.mpr (h₁.mem_iff.mp he)))
    · rcases hValue₂ p with ⟨e', he', hTarget', _⟩ | ⟨_, hHolds'⟩
      · exact absurd hTarget' (hNone e' (h₁.mem_iff.mpr (h₂.mem_iff.mp he')))
      · exact hHolds.trans hHolds'.symm
  · have hRefused {l' : List ε} (h' : l'.Perm l) : writeAll target value l' f = (f, false) := by
      obtain ⟨hSame, hDone⟩ := writeAll_idle fun e he => hIdle e (h'.mem_iff.mp he)
      refine Prod.ext hSame (Bool.eq_false_iff.mpr fun hTrue => ?_)
      exact hDone.mp hTrue r (h'.mem_iff.mpr hr) hNone
    rw [hRefused h₁, hRefused h₂]

/-- The order does not matter exactly then. -/
theorem orderless_iff : Orderless target value l f ↔
    ∀ l₁ l₂ : List ε, l₁.Perm l → l₂.Perm l →
      writeAll target value l₁ f = writeAll target value l₂ f := by
  classical
  constructor
  · intro h l₁ l₂ h₁ h₂
    exact h.writeAll_eq h₁ h₂
  · intro h
    by_cases hAll : ∀ e ∈ l, target e ≠ none
    · refine .inl ⟨hAll, fun e he e' he' hSame => ?_⟩
      obtain ⟨p, hp⟩ := Option.ne_none_iff_exists'.mp (hAll e he)
      have hLast {d : ε} (hd : d ∈ l) (hTarget : target d = some p) :
          (writeAll target value (l.erase d ++ [d]) f).1 p = value d :=
        writeAll_concat (fun c hc => hAll c (List.mem_of_mem_erase hc)) hTarget f
      have hPerm {d : ε} (hd : d ∈ l) : (l.erase d ++ [d]).Perm l :=
        (List.perm_append_singleton d _).trans (List.perm_cons_erase hd).symm
      rw [← hLast he hp, h _ _ (hPerm he) (hPerm he'), hLast he' (hSame.symm.trans hp)]
    · simp only [not_forall, not_not] at hAll
      obtain ⟨r, hr, hNone⟩ := hAll
      refine .inr ⟨⟨r, hr, hNone⟩, fun e he p hp => ?_⟩
      have hne : r ≠ e := by
        rintro rfl
        cases hNone.symm.trans hp
      have hFirst : (r :: l.erase r).Perm l := (List.perm_cons_erase hr).symm
      have hThere : r ∈ l.erase e := (List.mem_erase_of_ne hne).mpr hr
      have hSecond : (e :: r :: (l.erase e).erase r).Perm l :=
        ((List.perm_cons_erase hThere).symm.cons e).trans (List.perm_cons_erase he).symm
      have hSame := congrArg Prod.fst (h _ _ hFirst hSecond)
      rw [writeAll_refused hNone, writeAll_accepted hp, writeAll_refused hNone] at hSame
      exact (congrFun hSame p).trans (Function.update_self p (value e) f)

end Dtrun.Writes
