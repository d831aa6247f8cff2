import Dtrun.Supervisor.Dying
import Dtrun.Supervisor.GroupExit
import Dtrun.Supervisor.Resumes

/-! # The init's thread group

The init leads it and outlives everybody in it that the supervisor hears of; who joins it was created
by a thread of it, and shares its memory.
-/
namespace Dtrun
set_option autoImplicit false
open FiniteMap Transition Supervisor

namespace World

variable {pid : Pid} {seed : U64} {w : World} {p q : Pid}

theorem init_lives {ok : World → Label → Prop} (h : (system pid seed).Reach ok w)
    (hOpen : w.machine.result = none) : w.tracees.phase pid ≠ none := by
  refine System.Reach.invariant (I := fun w => w.machine.result = none →
    w.tracees.phase pid ≠ none) ?_ ?_ h hOpen
  · rintro _ ⟨k, rfl⟩ _
    change ((alone pid).after _).phase pid ≠ none
    rw [ne_eq, Tracees.phase_after_eq_none]
    simp [Tracees.phase, Tracees.task, alone, Map.get_singleton]
  · intro w l w' hReach hLives _ hStep hOpen
    cases l with
    | spawn p c thread vm =>
      rw [spawn_machine hStep] at hOpen
      rw [spawn_phase hStep]
      split
      · simp
      · exact hLives hOpen
    | exec p =>
      rw [exec_machine hStep] at hOpen
      rw [exec_phase hStep]
      exact hLives hOpen
    | report r =>
      obtain ⟨status, hRunning, _, hStatus, hTracees, hPassed⟩ := observe_wait hStep hOpen
      rw [hTracees, ne_eq, Tracees.phase_after_eq_none]
      refine Tracees.phase_observe_ne_none hStatus (fun hDeath => ?_) (hLives hRunning)
      exact hPassed.death_ne hDeath (pid_eq hReach).symm

/-- A child that is still to be announced is of its parent's group or leads its own, and is not the
init. -/
theorem family (h : (system pid seed).Reach Unheld w) (hOpen : w.machine.result = none)
    (hCloned : w.tracees.cloned p = some q) : q ≠ pid ∧
      ∀ g, w.tracees.group q = some g → g = q ∨ w.tracees.group p = some g := by
  refine System.Reach.invariant (I := fun w => w.machine.result = none → ∀ p q,
    w.tracees.cloned p = some q → q ≠ pid ∧
      ∀ g, w.tracees.group q = some g → g = q ∨ w.tracees.group p = some g) ?_ ?_ h hOpen p q hCloned
  · rintro _ ⟨k, rfl⟩ _ p q hCloned
    simp only [start, Tracees.cloned_after] at hCloned
    simp only [Tracees.cloned, Tracees.task, alone, Map.get_singleton] at hCloned
    split at hCloned
    · cases hCloned
    · cases hCloned
  · intro w l w' hReach hFamily hOk hStep hOpen p q hCloned
    cases l with
    | spawn p' c thread vm =>
      rw [spawn_machine hStep] at hOpen
      obtain ⟨_, _, hExpects⟩ := hOk
      rw [spawn_cloned hStep] at hCloned
      simp only [spawn_group hStep]
      split at hCloned
      · cases hCloned
      · rename_i hne
        split at hCloned
        · rename_i hParent
          cases hCloned
          refine ⟨?_, fun g hGroup => ?_⟩
          · rintro rfl
            obtain ⟨_, _, hFresh, _⟩ := spawn_eq_some hStep
            exact init_lives hReach hOpen (by simp [Tracees.phase, hFresh])
          · rw [if_pos rfl] at hGroup
            rw [if_neg hne, hParent]
            split at hGroup
            · exact .inr hGroup
            · exact .inl (Option.some.inj hGroup).symm
        · obtain ⟨hInit, hGroups⟩ := hFamily hOpen p q hCloned
          have hOther : q ≠ c := by
            rintro rfl
            exact Tracees.cloned_ne_of_expects hExpects p hCloned
          rw [if_neg hne, if_neg hOther]
          exact ⟨hInit, hGroups⟩
    | exec p' =>
      rw [exec_machine hStep] at hOpen
      rw [exec_cloned hStep] at hCloned
      simp only [exec_group hStep]
      exact hFamily hOpen p q hCloned
    | report r =>
      obtain ⟨hRunning, _, _, hTracees⟩ := observe_eq_some hStep
      rw [hTracees, Tracees.cloned_after] at hCloned
      obtain ⟨hInit, hGroups⟩ := hFamily hRunning p q (Tracees.cloned_observe hCloned)
      refine ⟨hInit, fun g hGroup => ?_⟩
      have hLives : (w.tracees.observe r).group p ≠ none := by
        intro hGone
        rw [Tracees.group, Option.map_eq_none_iff] at hGone
        simp [Tracees.cloned, hGone] at hCloned
      rw [hTracees, Tracees.group_after] at hGroup ⊢
      rw [Tracees.group_observe] at hGroup hLives ⊢
      split at hGroup
      · cases hGroup
      · split at hLives
        · exact absurd rfl hLives
        · rename_i hAlive
          rw [if_neg hAlive]
          exact hGroups g hGroup

theorem init_leads {ok : World → Label → Prop} (h : (system pid seed).Reach ok w)
    (hOpen : w.machine.result = none) : w.tracees.group pid = some pid := by
  refine System.Reach.invariant (I := fun w => w.machine.result = none →
    w.tracees.group pid = some pid) ?_ ?_ h hOpen
  · rintro _ ⟨k, rfl⟩ _
    change ((alone pid).after _).group pid = _
    rw [Tracees.group_after]
    simp [Tracees.group, Tracees.task, alone, Map.get_singleton]
  · intro w l w' hReach hLeads _ hStep hOpen
    cases l with
    | spawn p c thread vm =>
      rw [spawn_machine hStep] at hOpen
      have hne : pid ≠ c := by
        rintro rfl
        obtain ⟨_, _, hFresh, _⟩ := spawn_eq_some hStep
        exact init_lives hReach hOpen (by simp [Tracees.phase, hFresh])
      rw [spawn_group hStep, if_neg hne]
      exact hLeads hOpen
    | exec p =>
      rw [exec_machine hStep] at hOpen
      rw [exec_group hStep]
      exact hLeads hOpen
    | report r =>
      obtain ⟨status, hRunning, _, hStatus, hTracees, hPassed⟩ := observe_wait hStep hOpen
      rw [hTracees, Tracees.group_after, Tracees.group_observe, if_neg]
      · exact hLeads hRunning
      · intro hDeath
        rw [Report.death, hStatus] at hDeath
        exact hPassed.death_ne hDeath (pid_eq hReach).symm

/-- The threads of the init share its memory; it replaces it only when it is alone. -/
theorem group_space {ok : World → Label → Prop} (h : (system pid seed).Reach ok w)
    (hOpen : w.machine.result = none) (hGroup : w.tracees.group q = some pid) :
    w.tracees.space q = w.tracees.space pid := by
  refine System.Reach.invariant (I := fun w => w.machine.result = none → ∀ q,
    w.tracees.group q = some pid → w.tracees.space q = w.tracees.space pid) ?_ ?_ h hOpen q hGroup
  · rintro _ ⟨k, rfl⟩ _ q hGroup
    have hEq : q = pid := by
      simp only [start, Tracees.group_after] at hGroup
      simp only [Tracees.group, Tracees.task, alone, Map.get_singleton] at hGroup
      split at hGroup
      · assumption
      · cases hGroup
    rw [hEq]
  · intro w l w' hReach hShares _ hStep hOpen q hGroup
    cases l with
    | spawn p c thread vm =>
      rw [spawn_machine hStep] at hOpen
      obtain ⟨_, _, hFresh, _, _, hMem, _⟩ := spawn_eq_some hStep
      have hne : pid ≠ c := by
        rintro rfl
        exact init_lives hReach hOpen (by simp [Tracees.phase, hFresh])
      rw [spawn_group hStep] at hGroup
      rw [spawn_space hStep, spawn_space hStep, if_neg hne]
      split at hGroup
      · rename_i hEq
        rw [if_pos hEq]
        split at hGroup
        · rename_i hThread
          rw [if_pos (hMem hThread)]
          exact hShares hOpen p hGroup
        · exact absurd (Option.some.inj hGroup).symm hne
      · rename_i hOld
        rw [if_neg hOld]
        exact hShares hOpen q hGroup
    | exec p =>
      rw [exec_machine hStep] at hOpen
      rw [exec_group hStep] at hGroup
      obtain ⟨x, hTask, _, _, hAlone, _⟩ := exec_eq_some hStep
      rw [exec_space hStep, exec_space hStep]
      have alone (hOwn : w.tracees.group p = some pid) {c : Pid}
          (hc : w.tracees.group c = some pid) : c = p := by
        obtain ⟨y, hChild, hEq⟩ := Option.map_eq_some_iff.mp hc
        simp only [Tracees.group, hTask, Option.map_some, Option.some.injEq] at hOwn
        exact (hAlone c y hChild).resolve_right fun hOther => hOther (hEq.trans hOwn.symm)
      by_cases hOwn : w.tracees.group p = some pid
      · rw [if_pos (alone hOwn hGroup), if_pos (alone hOwn (init_leads hReach hOpen))]
      · have hq : q ≠ p := fun hEq => hOwn (hEq ▸ hGroup)
        have hInit : pid ≠ p := fun hEq => hOwn (hEq ▸ init_leads hReach hOpen)
        rw [if_neg hq, if_neg hInit]
        exact hShares hOpen q hGroup
    | report r =>
      obtain ⟨status, hRunning, _, hStatus, hTracees, hPassed⟩ := observe_wait hStep hOpen
      have hLives : r.death ≠ some pid := by
        intro hDeath
        rw [Report.death, hStatus] at hDeath
        exact hPassed.death_ne hDeath (pid_eq hReach).symm
      rw [hTracees, Tracees.group_after, Tracees.group_observe] at hGroup
      rw [hTracees, Tracees.space_after, Tracees.space_after, Tracees.space_observe,
        Tracees.space_observe, if_neg hLives]
      split at hGroup
      · cases hGroup
      · rename_i hAlive
        rw [if_neg hAlive]
        exact hShares hRunning q hGroup

end World

end Dtrun
