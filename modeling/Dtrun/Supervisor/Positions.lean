import Dtrun.Supervisor.Early
import Dtrun.Supervisor.Orderly
import Dtrun.Supervisor.Programs
import Dtrun.Supervisor.Teardown

/-! # A program under way

Until the end of the group, a position is orderly: which thread runs is settled, and so is what it
does next. What a host may still choose is when a new thread comes to its attach stop.
-/
namespace Dtrun
set_option autoImplicit false
open FiniteMap StateExcept Transition Supervisor

namespace Position

variable {P : Program} {σ : Equiv.Perm Pid} {seed : U64} {x y : Position P}

/-- What the supervisor reads before its next pass. -/
abbrev sv (x : Position P) : Supervisor := { x.world.machine.sv with effects := [] }

theorem placed (h : (P.on σ seed).Reach (Fair σ) x) (hOpen : x.world.machine.result = none) :
    Placed x.sv x.world.machine.awaits x.world.tracees :=
  (World.placed (reach_world h) hOpen).congr rfl rfl rfl rfl rfl rfl rfl

theorem awaiting (h : (P.on σ seed).Reach (Fair σ) x) (hOpen : x.world.machine.result = none) :
    Awaiting x.sv x.world.machine.awaits x.world.tracees := by
  obtain ⟨hStill, hCurrent, hDistinct, hTold⟩ := World.awaiting (reach_world h) hOpen
  exact ⟨hStill, hCurrent, hDistinct, hTold⟩

theorem reports {p : Pid} {status : WaitStatus} {S : P.State} (hFair : x.Fair σ (.stop p))
    (hNext : P.next x.state p = some (status, S)) (hStep : x.report σ status S = some y) :
    Reports x.sv x.world.tracees (fun q => x.Creating (σ.symm q))
      (Report.rename σ ⟨.ok status, P.answers S⟩) (status.rename σ.toEmbedding) (σ p) := by
  obtain ⟨_, hRuns, hNotes⟩ := hFair
  have hOwn := P.own x.state p status S hNext
  refine ⟨rfl, (World.observe_eq_some (report_eq_some hStep).1).2.1, hRuns, ?_, ?_, ?_⟩
  · rcases hOwn with hStop | hDeath
    · simp [hStop]
    · simp [hDeath]
  · rintro ⟨q, sig, event, S', hSame, hEvent⟩
    rw [Equiv.symm_apply_apply, hNext] at hSame
    cases hSame
    rcases hOwn with hStop | hDeath
    · cases hStop
      exact ⟨sig, event, rfl, hEvent⟩
    · cases hDeath
  · intro sig event hEq hEvent
    refine hNotes ?_
    cases status with
    | ptraceEvent q sig' event' =>
      simp only [WaitStatus.rename, WaitStatus.ptraceEvent.injEq] at hEq
      obtain ⟨_, rfl, rfl⟩ := hEq
      exact ⟨q, sig', event', S, hNext, hEvent⟩
    | _ => cases hEq

theorem not_ended {r : Report} {w : World} (hStep : x.world.observe r = some w)
    (hNot : ¬ w.machine.sv.groupExiting = true) : ¬ x.Ended := by
  intro hEnded
  obtain ⟨hOpen, _, hMachine, _⟩ := World.observe_eq_some hStep
  have hFlag : x.world.machine.services.groupExiting = true := hEnded
  have hServices :
      w.machine.sv.groupExiting = (x.world.machine.services.observe r).groupExiting := by
    rw [hMachine]
    exact congrArg Services.groupExiting (Machine.step_services hOpen)
  exact hNot (hServices.trans (Services.groupExiting_mono r hFlag))

theorem orderly_start (hOpen : (start σ seed : Position P).world.machine.result = none)
    (creates : Pid → Prop) :
    Orderly (start σ seed : Position P).sv (start σ seed : Position P).world.machine.awaits
      (start σ seed : Position P).world.tracees creates := by
  obtain ⟨hAwaits, hPicks⟩ := Machine.start_wait hOpen
  have hThreads : (start σ seed : Position P).sv.threads = AList.singleton (σ 0) ⟨0, 0, 0, true⟩ :=
    hPicks.threads
  have hRegistered (q : Pid) : (start σ seed : Position P).sv.registered q = decide (q = σ 0) := by
    rw [registered, hThreads, Map.get_singleton]
    split
    · rename_i hEq
      simp [hEq]
    · rename_i hne
      simp [hne]
  have hPhase (q : Pid) : (World.alone (σ 0)).phase q = if q = σ 0 then some .held else none := by
    rw [Tracees.phase, Tracees.task, World.alone, Map.get_singleton]
    split
    · rfl
    · rfl
  have hCloned (q : Pid) : (World.alone (σ 0)).cloned q = none := by
    rw [Tracees.cloned, Tracees.task, World.alone, Map.get_singleton]
    split
    · rfl
    · rfl
  have hNone : (start σ seed : Position P).world.machine.awaits = [] := hAwaits
  rw [hNone]
  refine ⟨fun q hq => ?_, fun q hq => ?_, fun q hFresh hLives => ?_, fun p q hNamed => ?_, .inl rfl,
    fun w hw => (by cases hw), fun q _ hBorn => ?_⟩
  · rw [hRegistered, decide_eq_true_eq] at hq
    rw [isScheduled, hThreads, Map.get_singleton, if_pos hq]
  · have hOld : (World.alone (σ 0)).Dying q := Tracees.dying_after.mp hq
    rw [Tracees.Dying, hPhase] at hOld
    split at hOld
    · simp at hOld
    · simp at hOld
  · have hOld : (World.alone (σ 0)).phase q ≠ none := fun hEq =>
      hLives ((Tracees.phase_after_eq_none _ _ _).mpr hEq)
    rw [hRegistered, decide_eq_false_iff_not] at hFresh
    rw [hPhase, if_neg hFresh] at hOld
    exact absurd rfl hOld
  · have hOld : (World.alone (σ 0)).cloned p = some q :=
      (Tracees.cloned_after _ _ _).symm.trans hNamed
    rw [hCloned] at hOld
    cases hOld
  · have hOld := Tracees.newborn_after.mp hBorn
    rw [hPhase] at hOld
    split at hOld
    · cases hOld
    · cases hOld

theorem attach_created {p : Pid} (hPlaced : Placed x.sv [] x.world.tracees)
    (hAwaiting : Awaiting x.sv [] x.world.tracees)
    (hOrderly : Orderly x.sv [] x.world.tracees fun q => x.Creating (σ.symm q))
    (hBorn : x.world.tracees.phase (σ p) = some .newborn) :
    x.sv.registered (σ p) = false ∧ ∃ q, x.world.tracees.cloned q = some (σ p) ∧
      x.sv.current = some q ∧ σ p ≠ q := by
  have hFresh : x.sv.registered (σ p) = false := by
    cases hKnown : x.sv.registered (σ p) with
    | false => rfl
    | true =>
      obtain ⟨w, hw, _⟩ := hOrderly.newborn _ hKnown hBorn
      cases hw
  obtain ⟨q, hCloned, hRan, hCurrent, _⟩ :=
    hOrderly.creator hPlaced hAwaiting hFresh (by simp [hBorn])
  refine ⟨hFresh, q, hCloned, hCurrent, ?_⟩
  rintro rfl
  rw [hBorn] at hRan
  cases hRan

theorem attach_early {p : Pid} (hPlaced : Placed x.sv [] x.world.tracees)
    (hAwaiting : Awaiting x.sv [] x.world.tracees)
    (hOrderly : Orderly x.sv [] x.world.tracees fun q => x.Creating (σ.symm q))
    (hNone : x.world.machine.awaits = []) (hStep : x.step σ (.attach p) = some y) :
    y.world.machine = x.world.machine.seen (σ p) := by
  obtain ⟨hOpen, hAllows, hMachine, _⟩ := World.observe_eq_some (report_eq_some hStep).1
  obtain ⟨hFresh, q, _, hCurrent, hne⟩ :=
    attach_created hPlaced hAwaiting hOrderly (Tracees.allows_attach rfl hAllows)
  have hStart : σ p ∉ x.sv.pendingStart := by
    intro hStart
    rw [(hPlaced.starting _ hStart).1] at hFresh
    cases hFresh
  have hPass := pass_early (k := (P.answers x.state).rename σ) hCurrent hne hFresh hStart
  rw [hMachine, Machine.step_settle hOpen rfl, hNone]
  refine (congrArg (Machine.settle x.world.machine.log) hPass).trans ?_
  simp [Machine.settle, Machine.seen, Supervisor.seen, hOpen, hNone]

/-- Nothing is asked for at an attach stop that comes first. -/
theorem attach_early_state {p : Pid} (hStep : x.step σ (.attach p) = some y)
    (hSeen : y.world.machine = x.world.machine.seen (σ p)) : y.state = x.state := by
  have hNothing : requests σ y.world = [] := by
    rw [requests, hSeen]
    rfl
  rw [(report_eq_some hStep).2.1, hNothing]
  rfl

theorem orderly (h : (P.on σ seed).Reach (Fair σ) x) (hOpen : x.world.machine.result = none)
    (hNot : ¬ x.Ended) : Orderly x.sv x.world.machine.awaits x.world.tracees
      fun q => x.Creating (σ.symm q) := by
  refine System.Reach.invariant (I := fun x => x.world.machine.result = none → ¬ x.Ended →
    Orderly x.sv x.world.machine.awaits x.world.tracees fun q => x.Creating (σ.symm q))
    ?_ ?_ h hOpen hNot
  · rintro _ rfl hOpen _
    exact orderly_start hOpen _
  · intro x m y hReach hOrderly hFair hStep hOpen hNot
    cases m with
    | spawn p =>
      obtain ⟨w, hSpawn, rfl⟩ := Option.map_eq_some_iff.mp hStep
      have hMachine : w.machine = x.world.machine := World.spawn_machine hSpawn
      change w.machine.result = none at hOpen
      rw [hMachine] at hOpen
      have hOld : Orderly x.world.machine.sv x.world.machine.awaits x.world.tracees
          fun q => x.Creating (σ.symm q) := (hOrderly hOpen hFair.1).congr rfl rfl
      refine (World.spawn_orderly hOld (World.placed (reach_world hReach) hOpen)
        (World.awaiting (reach_world hReach) hOpen) ?_ hSpawn).congr rfl rfl
      rw [Equiv.symm_apply_apply]
      exact hFair.2.1
    | exec p =>
      obtain ⟨w, hExec, rfl⟩ := Option.map_eq_some_iff.mp hStep
      have hMachine : w.machine = x.world.machine := World.exec_machine hExec
      change w.machine.result = none at hOpen
      change ¬ w.machine.sv.groupExiting = true at hNot
      rw [hMachine] at hOpen hNot
      have hOld : Orderly x.world.machine.sv x.world.machine.awaits x.world.tracees
          fun q => x.Creating (σ.symm q) := (hOrderly hOpen hNot).congr rfl rfl
      exact (World.exec_orderly hOld hExec).congr rfl rfl
    | attach p =>
      obtain ⟨hObserve, hState, _⟩ := report_eq_some hStep
      obtain ⟨status, hRunning, hAllows, hRead, hTracees, hPassed⟩ :=
        World.observe_wait hObserve hOpen
      cases hRead
      have hPlaced := placed hReach hRunning
      have hAwaiting := awaiting hReach hRunning
      have hOld := hOrderly hRunning hFair
      have hBorn := Tracees.allows_attach rfl hAllows
      rcases hOld.single with hNone | ⟨w, hOne⟩
      · rw [hNone] at hPlaced hAwaiting hOld
        have hSeen := attach_early hPlaced hAwaiting hOld hNone hStep
        have hCreates : (fun q => y.Creating (σ.symm q)) = fun q => x.Creating (σ.symm q) := by
          simp only [Creating, attach_early_state hStep hSeen]
        have hLeft : y.world.machine.awaits = [] := by rw [hSeen, Machine.seen, hNone]
        rw [hLeft, hTracees, hCreates]
        refine Orderly.congr (s := y.world.machine.sv) (hOld.early rfl hBorn ?_ ?_ ?_) rfl rfl
        all_goals
          rw [hSeen]
          rfl
      · rw [hOne] at hPlaced hAwaiting hOld hPassed
        have hChild : σ p = w.child := hOld.awaited hPlaced hAwaiting hBorn
        have hStop : WaitStatus.rename σ.toEmbedding (.stopped p .SIGSTOP) =
            .stopped w.child .SIGSTOP := by
          rw [← hChild]
          rfl
        rw [hStop] at hPassed
        obtain ⟨hLeft, hThreads⟩ := hPassed.attached_last
        rw [hLeft, hTracees]
        exact (hOld.returned hPlaced hAwaiting (congrArg Except.ok hStop) hAllows hThreads _).congr
          rfl rfl
    | stop p =>
      obtain ⟨status, S, hNext, hReport⟩ := stop_eq_some hStep
      have hObserve := (report_eq_some hReport).1
      obtain ⟨status', hRunning, _, hRead, hTracees, hPassed⟩ := World.observe_wait hObserve hOpen
      cases hRead
      have hReports := reports hFair hNext hReport
      have hOld := hOrderly hRunning hFair.1
      have hPlaced := placed hReach hRunning
      have hAwaiting := awaiting hReach hRunning
      have hNone := (hOld.runs hPlaced hAwaiting hReports.runs).2
      rw [hNone] at hOld hPlaced hAwaiting hPassed
      rw [hTracees]
      exact (hOld.reported hPlaced hAwaiting hReports hPassed _).congr rfl rfl
    | last r =>
      obtain ⟨w, hLast, rfl⟩ := Option.map_eq_some_iff.mp hStep
      exact absurd hFair.1 (not_ended hLast hNot)

end Position

end Dtrun
