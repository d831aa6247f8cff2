import Mathlib.Data.Option.Basic

/-! # Transition systems with executable labelled steps

A label names what happens next; a step that the state does not allow yields nothing. Runs and
reachable states are taken relative to a condition on steps, so that a law of all runs and a law of
the runs that keep to a condition are the same kind of statement.
-/
namespace Dtrun.Transition
set_option autoImplicit false

structure System (S L : Type) where
  init : S → Prop
  step : S → L → Option S

namespace System

variable {S L : Type} (sys : System S L)

/-- `Run ok s labels t`: the labels lead from `s` to `t`, each step meeting `ok`. -/
inductive Run (ok : S → L → Prop) : S → List L → S → Prop
  | nil (s : S) : Run ok s [] s
  | cons {s t u : S} {l : L} {labels : List L} :
      ok s l → sys.step s l = some t → Run ok t labels u → Run ok s (l :: labels) u

inductive Reach (ok : S → L → Prop) : S → Prop
  | init {s : S} : sys.init s → Reach ok s
  | step {s t : S} (l : L) : Reach ok s → ok s l → sys.step s l = some t → Reach ok t

def free : S → L → Prop := fun _ _ => True

instance (s : S) (l : L) : Decidable (free s l) := .isTrue trivial

/-- Where the labels lead, if every step is allowed and meets the condition. -/
def exec (ok : S → L → Prop) [∀ s l, Decidable (ok s l)] (s : S) : List L → Option S
  | [] => some s
  | l :: labels => if ok s l then (sys.step s l).bind fun t => exec ok t labels else none

variable {sys}

theorem Reach.mono {ok ok' : S → L → Prop} (hOk : ∀ s l, ok s l → ok' s l) {s : S}
    (h : sys.Reach ok s) : sys.Reach ok' s := by
  induction h with
  | init hInit => exact .init hInit
  | step l _ hStep hNext ih => exact .step l ih (hOk _ _ hStep) hNext

/-- The invariant rule: what holds at the start and survives each step holds of every state
reached. The state a step leaves may be used as a reachable one. -/
theorem Reach.invariant {ok : S → L → Prop} {I : S → Prop} (hInit : ∀ s, sys.init s → I s)
    (hStep : ∀ s l t, sys.Reach ok s → I s → ok s l → sys.step s l = some t → I t) {s : S}
    (h : sys.Reach ok s) : I s := by
  induction h with
  | init h => exact hInit _ h
  | step l hReach hOk hNext ih => exact hStep _ l _ hReach ih hOk hNext

theorem Reach.run {ok : S → L → Prop} {s t : S} {labels : List L} (hs : sys.Reach ok s)
    (hRun : sys.Run ok s labels t) : sys.Reach ok t := by
  induction hRun with
  | nil _ => exact hs
  | cons hOk hNext _ ih => exact ih (hs.step _ hOk hNext)

theorem Run.mono {ok ok' : S → L → Prop} (hOk : ∀ s l, ok s l → ok' s l) {s t : S}
    {labels : List L} (h : sys.Run ok s labels t) : sys.Run ok' s labels t := by
  induction h with
  | nil _ => exact .nil _
  | cons hStep hNext _ ih => exact .cons (hOk _ _ hStep) hNext ih

/-- The invariant rule for the runs from one state. -/
theorem Run.invariant {ok : S → L → Prop} {I : S → Prop} {s t : S} {labels : List L}
    (h : sys.Run ok s labels t) (hs : I s)
    (hStep : ∀ s l t, I s → ok s l → sys.step s l = some t → I t) : I t := by
  induction h with
  | nil _ => exact hs
  | cons hOk hNext _ ih => exact ih (hStep _ _ _ hs hOk hNext)

/-- The measure rule: where steps that count lower a measure and no other step raises it, a run has
no more of them than the measure loses. -/
theorem Run.countP_le {ok : S → L → Prop} {counts : L → Bool} {rank : S → Nat} {s t : S}
    {labels : List L} (h : sys.Run ok s labels t)
    (hStep : ∀ s l t, ok s l → sys.step s l = some t →
      (if counts l then 1 else 0) + rank t ≤ rank s) : labels.countP counts + rank t ≤ rank s := by
  induction h with
  | nil _ => exact Nat.le_of_eq (Nat.zero_add _)
  | cons hOk hNext _ ih =>
    have hFirst := hStep _ _ _ hOk hNext
    rw [List.countP_cons]
    omega

theorem Run.append {ok : S → L → Prop} {s t u : S} {first second : List L}
    (h : sys.Run ok s first t) (h' : sys.Run ok t second u) : sys.Run ok s (first ++ second) u := by
  induction h with
  | nil _ => exact h'
  | cons hOk hNext _ ih => exact .cons hOk hNext (ih h')

theorem run_of_exec_mem {ok : S → L → Prop} [∀ s l, Decidable (ok s l)] {P : L → Prop} {s t : S}
    {labels : List L} (h : sys.exec ok s labels = some t) (hP : ∀ l ∈ labels, P l) :
    sys.Run (fun s l => ok s l ∧ P l) s labels t := by
  induction labels generalizing s with
  | nil =>
    cases h
    exact .nil _
  | cons l labels ih =>
    simp only [exec] at h
    split at h
    · rename_i hOk
      obtain ⟨u, hStep, hRest⟩ := Option.bind_eq_some_iff.mp h
      exact .cons ⟨hOk, hP l List.mem_cons_self⟩ hStep
        (ih hRest fun l' hMem => hP l' (List.mem_cons_of_mem _ hMem))
    · cases h

theorem run_of_exec {ok : S → L → Prop} [∀ s l, Decidable (ok s l)] {s t : S} {labels : List L}
    (h : sys.exec ok s labels = some t) : sys.Run ok s labels t :=
  (run_of_exec_mem (P := fun _ => True) h fun _ _ => trivial).mono fun _ _ => And.left

theorem reach_of_exec {ok : S → L → Prop} [∀ s l, Decidable (ok s l)] {s t : S} {labels : List L}
    (hInit : sys.init s) (h : sys.exec ok s labels = some t) : sys.Reach ok t :=
  (Reach.init hInit).run (run_of_exec h)

/-! ## Observers

An observer reads the run and keeps notes of its own; it allows and forbids nothing.
-/

variable {G : Type}

variable (sys) in
def observed (note : G → S → L → G) (start : G) : System (S × G) L where
  init x := sys.init x.1 ∧ x.2 = start
  step x l := (sys.step x.1 l).map fun t => (t, note x.2 x.1 l)

theorem observed_step {note : G → S → L → G} {start : G} {x y : S × G} {l : L}
    (h : (sys.observed note start).step x l = some y) :
    sys.step x.1 l = some y.1 ∧ y.2 = note x.2 x.1 l := by
  obtain ⟨t, hStep, rfl⟩ := Option.map_eq_some_iff.mp h
  exact ⟨hStep, rfl⟩

theorem Run.observed {note : G → S → L → G} {start : G} {ok : S → L → Prop} {s t : S}
    {labels : List L} (h : sys.Run ok s labels t) (g : G) :
    ∃ g', (sys.observed note start).Run (fun x l => ok x.1 l) (s, g) labels (t, g') := by
  induction h generalizing g with
  | nil _ => exact ⟨g, .nil _⟩
  | @cons s _ _ l _ hOk hNext _ ih =>
    obtain ⟨g', hRest⟩ := ih (note g s l)
    refine ⟨g', .cons hOk ?_ hRest⟩
    simp [System.observed, hNext]

theorem Reach.unobserved {note : G → S → L → G} {start : G} {ok : S × G → L → Prop}
    {ok' : S → L → Prop} (hOk : ∀ x l, ok x l → ok' x.1 l) {x : S × G}
    (h : (sys.observed note start).Reach ok x) : sys.Reach ok' x.1 := by
  induction h with
  | init hInit => exact .init hInit.1
  | step l _ hStep hNext ih => exact .step l ih (hOk _ _ hStep) (observed_step hNext).1

end System

end Dtrun.Transition
