import Mathlib.Data.List.Nodup
import Mathlib.Data.List.TakeWhile

/-! # First come, first served

A queue is joined at its back and served at its head; whoever leaves without being served may have
stood anywhere in it. The history of the departures then says how long an element had to wait: no
more were served before it than stood ahead of it, and those that stood ahead of it were gone.
-/
namespace Dtrun.Fifo
set_option autoImplicit false

inductive Departure (α : Type) where
  | served (a : α)
  | left (a : α)
  deriving DecidableEq

def Departure.isServed {α : Type} : Departure α → Bool
  | .served _ => true
  | .left _ => false

variable {α : Type} {a : α} {ahead gone served queue queue' : List α}
  {history : List (Departure α)}

def departures (gone served : List α) : List (Departure α) :=
  gone.map .left ++ served.map .served

theorem served_mem_departures : .served a ∈ departures gone served ↔ a ∈ served := by
  simp [departures]

theorem left_mem_departures : .left a ∈ departures gone served ↔ a ∈ gone := by
  simp [departures]

theorem countP_departures (gone served : List α) :
    (departures gone served).countP Departure.isServed = served.length := by
  rw [departures, List.countP_append, List.countP_map, List.countP_map,
    List.countP_eq_zero.mpr (fun b _ => by simp [Departure.isServed]),
    List.countP_eq_length.mpr (fun b _ => by simp [Departure.isServed]), Nat.zero_add]

theorem split_at {front back : List α} (h : front ++ a :: back = served ++ queue') :
    (∃ rest, front = served ++ rest ∧ queue' = rest ++ a :: back) ∨
      ∃ more, served = front ++ a :: more := by
  rcases List.append_eq_append_iff.mp h with ⟨middle, hServed, hRest⟩ | ⟨rest, hFront, hQueue⟩
  · cases middle with
    | nil => exact .inl ⟨[], by simpa using hServed.symm, hRest.symm⟩
    | cons b more =>
      obtain ⟨rfl, _⟩ := List.cons.inj hRest
      exact .inr ⟨more, hServed⟩
  · exact .inl ⟨rest, hFront, hQueue⟩

variable [DecidableEq α]

/-- Some leave, others join, and then the head is served. -/
def Step (gone served queue queue' : List α) : Prop :=
  ∃ joined, (queue.filter fun a => a ∉ gone) ++ joined = served ++ queue'

/-- The history up to the first time that `a` is served. -/
def before (a : α) (history : List (Departure α)) : List (Departure α) :=
  history.takeWhile fun d => d ≠ .served a

/-- `a`, which stood behind `ahead`, is served after no more than these, and after all of them that
did not leave. -/
structure Fair (ahead : List α) (a : α) (history : List (Departure α)) : Prop where
  bounded : (before a history).countP Departure.isServed ≤ ahead.length
  ordered : .served a ∈ history →
    ∀ b ∈ ahead, .served b ∈ before a history ∨ .left b ∈ before a history

/-- As long as it waits, `a` keeps its place: whoever stood ahead of it still does or has gone, and
nobody else does. -/
structure Standing (ahead : List α) (a : α) (history : List (Departure α)) (queue : List α) :
    Prop where
  fair : Fair ahead a history
  place : .served a ∉ history → ∃ front back, queue = front ++ a :: back ∧ a ∉ front ∧
    history.countP Departure.isServed + front.length ≤ ahead.length ∧
    ∀ b ∈ ahead, b ∈ front ∨ .served b ∈ history ∨ .left b ∈ history

theorem ne_served_of_not_mem (h : .served a ∉ history) :
    ∀ d ∈ history, decide (d ≠ .served a) = true := by
  intro d hd
  apply decide_eq_true
  rintro rfl
  exact h hd

theorem before_of_not_mem (h : .served a ∉ history) : before a history = history :=
  List.takeWhile_eq_self_iff.mpr (ne_served_of_not_mem h)

theorem before_append_of_mem (h : .served a ∈ history) (later : List (Departure α)) :
    before a (history ++ later) = before a history := by
  induction history with
  | nil => cases h
  | cons d rest ih =>
    by_cases hd : d = .served a
    · simp [before, hd]
    · have hRest : .served a ∈ rest := (List.mem_cons.mp h).resolve_left (Ne.symm hd)
      have hLater := ih hRest
      simp only [before, List.cons_append] at hLater ⊢
      rw [List.takeWhile_cons_of_pos (by simpa using hd), hLater,
        List.takeWhile_cons_of_pos (by simpa using hd)]

theorem before_append_served (h : .served a ∉ history) (later : List (Departure α)) :
    before a (history ++ .served a :: later) = history := by
  rw [before, List.takeWhile_append_of_pos (ne_served_of_not_mem h)]
  simp

theorem Standing.start (front back : List α) (a : α) (h : a ∉ front) :
    Standing front a [] (front ++ a :: back) where
  fair := ⟨by simp [before], nofun⟩
  place _ := ⟨front, back, rfl, h, by simp, fun _ hb => .inl hb⟩

/-- The step rule: as long as `a` waits, the queue is served in turn. -/
theorem Standing.step (h : Standing ahead a history queue) (hStays : a ∉ gone)
    (hStep : .served a ∉ history → Step gone served queue queue') :
    Standing ahead a (history ++ departures gone served) queue' := by
  by_cases hServed : .served a ∈ history
  · have hBefore := before_append_of_mem hServed (departures gone served)
    refine ⟨⟨?_, fun _ => ?_⟩, fun hNot => absurd (List.mem_append_left _ hServed) hNot⟩
    · rw [hBefore]
      exact h.fair.bounded
    · rw [hBefore]
      exact h.fair.ordered hServed
  · obtain ⟨front, back, rfl, hFront, hCount, hAhead⟩ := h.place hServed
    obtain ⟨joined, hJoined⟩ := hStep hServed
    have hLength : (front.filter fun b => b ∉ gone).length ≤ front.length :=
      List.length_filter_le _ _
    have hNotFront : a ∉ front.filter fun b => b ∉ gone := fun ha => hFront (List.mem_filter.mp ha).1
    have hFront' : ∀ b ∈ ahead, b ∈ (front.filter fun b => b ∉ gone) ∨ b ∈ gone ∨
        .served b ∈ history ∨ .left b ∈ history := by
      intro b hb
      rcases hAhead b hb with hStill | hGone
      · by_cases hLeaves : b ∈ gone
        · exact .inr (.inl hLeaves)
        · exact .inl (List.mem_filter.mpr ⟨hStill, decide_eq_true hLeaves⟩)
      · exact .inr (.inr hGone)
    have hSelf : (a :: back).filter (fun b => b ∉ gone) = a :: back.filter fun b => b ∉ gone :=
      List.filter_cons_of_pos (decide_eq_true hStays)
    rw [List.filter_append, hSelf, List.append_assoc, List.cons_append] at hJoined
    generalize (front.filter fun b => b ∉ gone) = left at *
    rcases split_at hJoined with ⟨rest, rfl, rfl⟩ | ⟨more, rfl⟩
    · -- `a` still waits
      have hNot : .served a ∉ history ++ departures gone served := by
        rw [List.mem_append, served_mem_departures, not_or]
        exact ⟨hServed, fun ha => hNotFront (List.mem_append_left _ ha)⟩
      have hNow : (history ++ departures gone served).countP Departure.isServed + rest.length ≤
          ahead.length := by
        rw [List.countP_append, countP_departures]
        rw [List.length_append] at hLength
        omega
      refine ⟨⟨?_, fun hYes => absurd hYes hNot⟩, fun _ => ⟨rest, _, rfl, ?_, hNow, ?_⟩⟩
      · rw [before_of_not_mem hNot]
        omega
      · exact fun ha => hNotFront (List.mem_append_right _ ha)
      · intro b hb
        simp only [List.mem_append, served_mem_departures, left_mem_departures]
        rcases hFront' b hb with hStill | hLeaves | hWas | hHad
        · rcases List.mem_append.mp hStill with hNext | hRest
          · exact .inr (.inl (.inr hNext))
          · exact .inl hRest
        · exact .inr (.inr (.inr hLeaves))
        · exact .inr (.inl (.inl hWas))
        · exact .inr (.inr (.inl hHad))
    · -- `a` is served, after all that stood in front of it
      have hHistory : history ++ departures gone (left ++ a :: more) =
          (history ++ departures gone left) ++ .served a :: more.map .served := by
        simp [departures]
      have hNot : .served a ∉ history ++ departures gone left := by
        rw [List.mem_append, served_mem_departures, not_or]
        exact ⟨hServed, hNotFront⟩
      refine ⟨⟨?_, fun _ b hb => ?_⟩, fun hNone => ?_⟩
      · rw [hHistory, before_append_served hNot, List.countP_append, countP_departures]
        omega
      · rw [hHistory, before_append_served hNot]
        simp only [List.mem_append, served_mem_departures, left_mem_departures]
        rcases hFront' b hb with hNext | hLeaves | hWas | hHad
        · exact .inl (.inr hNext)
        · exact .inr (.inr hLeaves)
        · exact .inl (.inl hWas)
        · exact .inr (.inl hHad)
      · rw [hHistory] at hNone
        exact absurd (by simp) hNone

/-- Of a queue without repetitions the head was served; who was in it and is neither in the next
one nor gone was served. -/
theorem Step.of_drop {joined : List α} {n : Nat} (hNodup : queue.Nodup)
    (hNew : ∀ b ∈ joined, b ∉ queue)
    (hQueue : queue' = ((queue.drop n).filter fun b => b ∉ gone) ++ joined) :
    Step gone (queue.filter fun b => b ∉ queue' ∧ b ∉ gone) queue queue' := by
  refine ⟨joined, ?_⟩
  have hSplit := List.take_append_drop n queue
  have hDisjoint := List.disjoint_of_nodup_append (hSplit.symm ▸ hNodup)
  have hTaken : (queue.take n).filter (fun b => b ∉ queue' ∧ b ∉ gone) =
      (queue.take n).filter fun b => b ∉ gone := by
    apply List.filter_congr
    intro b hb
    have hNot : b ∉ queue' := by
      rw [hQueue, List.mem_append, not_or]
      exact ⟨fun hLater => hDisjoint hb (List.mem_filter.mp hLater).1,
        fun hJoined => hNew b hJoined (List.mem_of_mem_take hb)⟩
    simp [hNot]
  have hKept : (queue.drop n).filter (fun b => b ∉ queue' ∧ b ∉ gone) = [] := by
    apply List.filter_eq_nil_iff.mpr
    intro b hb hOut
    obtain ⟨hNot, hStays⟩ := of_decide_eq_true hOut
    apply hNot
    rw [hQueue]
    exact List.mem_append_left _ (List.mem_filter.mpr ⟨hb, decide_eq_true hStays⟩)
  calc (queue.filter fun b => b ∉ gone) ++ joined
      = ((queue.take n ++ queue.drop n).filter fun b => b ∉ gone) ++ joined := by rw [hSplit]
    _ = ((queue.take n).filter fun b => b ∉ gone) ++ queue' := by
      rw [List.filter_append, List.append_assoc, ← hQueue]
    _ = ((queue.take n ++ queue.drop n).filter fun b => b ∉ queue' ∧ b ∉ gone) ++ queue' := by
      rw [List.filter_append, hTaken, hKept, List.append_nil]
    _ = (queue.filter fun b => b ∉ queue' ∧ b ∉ gone) ++ queue' := by rw [hSplit]

end Dtrun.Fifo
