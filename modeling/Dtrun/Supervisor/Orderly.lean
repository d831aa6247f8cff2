import Dtrun.Supervisor.Awaiting
import Dtrun.Supervisor.Granted
import Dtrun.Supervisor.Spaces

/-! # One thread at a time

Where all tasks are scheduled threads and nobody is killed, the only task that runs is the one that
`current` names; it creates at most one thread before it reports that, and at most one attach stop
is awaited.
-/
namespace Dtrun
set_option autoImplicit false
open FiniteMap StateExcept Transition Supervisor

variable {k : Answers} {s s' v : Supervisor} {t : Tracees} {p q : Pid} {r : Report}
  {status : WaitStatus} {flow : Flow} {awaits awaits' : List Await} {creates : Pid → Prop}

/-- `creates` are the threads that are about to report a new one. -/
structure Orderly (s : Supervisor) (awaits : List Await) (t : Tracees) (creates : Pid → Prop) :
    Prop where
  scheduled : ∀ q, s.registered q = true → s.isScheduled q = true
  dying : ∀ q, t.Dying q → s.current = some q
  announced : ∀ q, s.registered q = false → t.phase q ≠ none → ∃ p, t.cloned p = some q
  cloning : ∀ p q, t.cloned p = some q → t.phase p = some .released ∧ creates p
  single : awaits = [] ∨ ∃ w, awaits = [w]
  parent : ∀ w ∈ awaits, s.current = some w.parent ∧ ¬ t.Dying w.parent
  newborn : ∀ q, s.registered q = true → t.phase q = some .newborn → ∃ w ∈ awaits, w.child = q

namespace Orderly

theorem congr (h : Orderly s awaits t creates) (hThreads : s'.threads = s.threads)
    (hCurrent : s'.current = s.current) : Orderly s' awaits t creates := by
  have hIs (q : Pid) : s'.isScheduled q = s.isScheduled q := isScheduled_of_threads hThreads q
  have hReg (q : Pid) : s'.registered q = s.registered q := registered_of_threads hThreads q
  refine ⟨?_, ?_, ?_, h.cloning, h.single, ?_, ?_⟩
  · simp only [hIs, hReg]
    exact h.scheduled
  · rw [hCurrent]
    exact h.dying
  · simp only [hReg]
    exact h.announced
  · rw [hCurrent]
    exact h.parent
  · simp only [hReg]
    exact h.newborn

/-- The thread that runs is current, and no attach stop is awaited. -/
theorem runs (h : Orderly s awaits t creates) (hPlaced : Placed s awaits t)
    (hAwaiting : Awaiting s awaits t)
    (hRuns : t.phase p = some .released ∨ t.phase p = some .exiting) :
    s.current = some p ∧ awaits = [] := by
  have hCurrent : s.current = some p := by
    rcases hRuns with hRan | hGone
    · obtain ⟨hKnown, hCurrent⟩ := hPlaced.ran hRan
      exact hCurrent (h.scheduled p hKnown)
    · exact h.dying p (.inr hGone)
  refine ⟨hCurrent, ?_⟩
  rcases h.single with hNone | ⟨w, rfl⟩
  · exact hNone
  · obtain ⟨hParent, hNot⟩ := h.parent w List.mem_cons_self
    cases hCurrent.symm.trans hParent
    rcases hRuns with hRan | hGone
    · exact absurd hRan (hAwaiting.still w List.mem_cons_self).1
    · exact absurd (.inr hGone) hNot

theorem creator (h : Orderly s awaits t creates) (hPlaced : Placed s awaits t)
    (hAwaiting : Awaiting s awaits t) (hFresh : s.registered q = false)
    (hLives : t.phase q ≠ none) :
    ∃ p, t.cloned p = some q ∧ t.phase p = some .released ∧ s.current = some p ∧ awaits = [] := by
  obtain ⟨p, hCloned⟩ := h.announced q hFresh hLives
  have hRan := (h.cloning p q hCloned).1
  obtain ⟨hCurrent, hNone⟩ := h.runs hPlaced hAwaiting (.inl hRan)
  exact ⟨p, hCloned, hRan, hCurrent, hNone⟩

/-- While an attach stop is awaited, the newborn task is the one it is awaited of. -/
theorem awaited {w : Await} (h : Orderly s [w] t creates) (hPlaced : Placed s [w] t)
    (hAwaiting : Awaiting s [w] t) (hBorn : t.phase q = some .newborn) : q = w.child := by
  cases hKnown : s.registered q with
  | true =>
    obtain ⟨w', hw', hChild⟩ := h.newborn q hKnown hBorn
    rw [← hChild, List.mem_singleton.mp hw']
  | false =>
    obtain ⟨_, _, _, _, hNone⟩ := h.creator hPlaced hAwaiting hKnown (by simp [hBorn])
    cases hNone

end Orderly

structure Reports (s : Supervisor) (t : Tracees) (creates : Pid → Prop) (r : Report)
    (status : WaitStatus) (p : Pid) : Prop where
  read : r.status = .ok status
  allows : t.allows r = true
  runs : t.phase p = some .released ∨ t.phase p = some .exiting
  own : status.stop = some p ∨ status.death = some p
  creates : creates p → ∃ sig event, status = .ptraceEvent p sig event ∧ event.creates = true
  notes : ∀ sig event, status = .ptraceEvent p sig event → event.creates = true → s.notesThread p

namespace Reports

theorem event_eq {sig : Signal} {event : Event} (h : Reports s t creates r status p)
    (hEvent : status = .ptraceEvent q sig event) : q = p := by
  subst hEvent
  rcases h.own with hStop | hDeath
  · exact Option.some.inj hStop
  · cases hDeath

theorem death (h : Reports s t creates r status p) (hDying : t.Dying p) :
    status.death = some p := by
  refine h.own.resolve_left fun hStop => ?_
  obtain ⟨hSyscall, hEvent, hSignal⟩ := Tracees.allows_dying_task hDying h.allows
  rw [h.read] at hSyscall hEvent hSignal
  cases status with
  | ptraceSyscall q =>
    cases hStop
    exact hSyscall rfl
  | ptraceEvent q sig event =>
    cases hStop
    exact hEvent sig event rfl
  | stopped q sig =>
    cases hStop
    exact hSignal sig rfl
  | _ => cases hStop

theorem announces (h : Reports s t creates r status p) (hOrderly : Orderly s [] t creates)
    (hPlaced : Placed s [] t) (hAwaiting : Awaiting s [] t) {p' : Pid}
    (hCloned : t.cloned p' = some q) :
    p' = p ∧ ∃ sig event, status = .ptraceEvent p sig event ∧ event.creates = true ∧
      r.answers.getevent p = .ok q := by
  obtain ⟨hRan, hCreates⟩ := hOrderly.cloning p' q hCloned
  have hNow := (hOrderly.runs hPlaced hAwaiting h.runs).1
  cases (hOrderly.runs hPlaced hAwaiting (.inl hRan)).1.symm.trans hNow
  obtain ⟨sig, event, rfl, hEvent⟩ := h.creates hCreates
  obtain ⟨c, hChild⟩ := Tracees.allows_getevent h.read hEvent h.allows
  cases hCloned.symm.trans (Tracees.allows_creates h.read hEvent hChild h.allows)
  exact ⟨rfl, sig, event, rfl, hEvent, hChild⟩

end Reports

namespace Orderly

theorem dying_reported (h : Orderly s [] t creates) (hPlaced : Placed s [] t)
    (hAwaiting : Awaiting s [] t) (hReports : Reports s t creates r status p)
    (hPassed : Passed r.answers s [] status (.wait awaits') s')
    (hq : ((t.observe r).after s').Dying q) : s'.current = some q := by
  have hCurrent := (h.runs hPlaced hAwaiting hReports.runs).1
  rcases Tracees.dying_of_observe (Tracees.dying_after.mp hq) with hOld | ⟨sig, hExit⟩
  · cases hCurrent.symm.trans (h.dying q hOld)
    have hGone := Tracees.phase_observe_death (t := t) hReports.read (hReports.death hOld) p
    rw [if_pos rfl] at hGone
    rcases Tracees.dying_after.mp hq with hNow | hNow
    · rw [hGone] at hNow
      cases hNow
    · rw [hGone] at hNow
      cases hNow
  · rw [hReports.read] at hExit
    cases hExit
    cases hReports.event_eq rfl
    have kept {flow : Flow} {v : Supervisor}
        (hDispatched : Dispatched r.answers s (.ptraceEvent p sig .exit) flow v) :
        v.current = some p := by
      rcases hDispatched.current with hSame | ⟨_, hCall, _⟩ | ⟨_, hDeath, _⟩
      · exact hSame.trans hCurrent
      · cases hCall
      · cases hDeath
    cases hPassed with
    | next hDispatched hTail =>
      rcases hTail with ⟨hNone, _⟩ | ⟨_, rfl⟩
      · rw [kept hDispatched] at hNone
        cases hNone
      · exact kept hDispatched
    | await hDispatched => exact kept hDispatched

theorem newborn_reported (hPlaced : Placed s [] t) (hStatus : r.status = .ok status)
    (hPassed : Passed r.answers s [] status (.wait awaits') s') (hFresh : s.registered q = false)
    (hKnown : s'.registered q = true) (hBorn : t.phase q = some .newborn) :
    ∃ w ∈ awaits', w.child = q := by
  rcases hPassed.lookup q with hSame | hDeath | ⟨_, p, sig, event, rfl, hCreates, hChild⟩
  · rw [registered, hSame] at hKnown
    rw [registered, hKnown] at hFresh
    cases hFresh
  · rw [hPassed.unregistered hDeath] at hKnown
    cases hKnown
  have hNot (hEvent : event.creates = false) : False := by
    rw [hCreates] at hEvent
    cases hEvent
  cases hPassed with
  | next hDispatched _ =>
    cases hDispatched with
    | clone _ hNamed hRegister hFlow =>
      cases hNamed.symm.trans hChild
      rcases hFlow with ⟨_, hFlow, _⟩ | ⟨hStart, _, _⟩
      · cases hFlow
      · exfalso
        cases hRegister with
        | again hOld =>
          have hOld' : s.registered q = true := hOld
          rw [hFresh] at hOld'
          cases hOld'
        | released _ hSeen => exact (hPlaced.early q hSeen).2.ne_newborn hBorn
        | expected _ _ hQuiet =>
          rw [hQuiet.pendingStart] at hStart
          exact hStart (Finset.mem_insert_self _ _)
    | dying => exact (hNot rfl).elim
    | event hEvent => exact (hNot hEvent).elim
    | died hDeath => cases hDeath
    | idle hIdle =>
      rcases hIdle with ⟨_, hEq⟩ | hEq
      · cases hEq
      · cases hEq
  | await hDispatched =>
    cases hDispatched with
    | clone _ hNamed _ hFlow =>
      cases hNamed.symm.trans hChild
      rcases hFlow with ⟨_, ⟨⟩, _⟩ | ⟨_, hFlow, _⟩
      · exact ⟨_, List.mem_singleton_self _, rfl⟩
      · cases hFlow

theorem reported (h : Orderly s [] t creates) (hPlaced : Placed s [] t)
    (hAwaiting : Awaiting s [] t) (hReports : Reports s t creates r status p)
    (hPassed : Passed r.answers s [] status (.wait awaits') s') (creates' : Pid → Prop) :
    Orderly s' awaits' ((t.observe r).after s') creates' := by
  have hStatus := hReports.read
  have hCurrent := (h.runs hPlaced hAwaiting hReports.runs).1
  have lives {q : Pid} (hLives : (t.observe r).phase q ≠ none) : t.phase q ≠ none := by
    rcases Tracees.phase_observe (t := t) hStatus q with hSame | ⟨hStop | hDeath, _⟩
    · rwa [hSame] at hLives
    · exact Tracees.allows_stop hStatus hStop hReports.allows
    · rw [Tracees.phase_observe_death hStatus hDeath, if_pos rfl] at hLives
      exact absurd rfl hLives
  refine ⟨fun q hq => ?_, fun q hq => h.dying_reported hPlaced hAwaiting hReports hPassed hq,
    fun q hFresh hLives => ?_, fun p' q hCloned => ?_, ?_, fun w hw => ?_, fun q hq hBorn => ?_⟩
  · rcases hPassed.lookup q with hSame | hDeath | ⟨hFresh, p', sig, event, hEvent, hCreates, hChild⟩
    · rw [registered, hSame] at hq
      rw [isScheduled, hSame]
      exact h.scheduled q hq
    · rw [hPassed.unregistered hDeath] at hq
      cases hq
    · cases hReports.event_eq hEvent
      subst hEvent
      rw [hPassed.isScheduled_fresh hCreates hChild hFresh]
      exact decide_eq_true (hReports.notes sig event rfl hCreates)
  · rw [ne_eq, Tracees.phase_after_eq_none] at hLives
    have hUnknown : s.registered q = false := by
      cases hKnown : s.registered q with
      | false => rfl
      | true =>
        have hDeath : status.death ≠ some q := by
          intro hDeath
          rw [Tracees.phase_observe_death hStatus hDeath, if_pos rfl] at hLives
          exact hLives rfl
        rw [hPassed.registered_mono hKnown hDeath] at hFresh
        cases hFresh
    obtain ⟨p', hCloned⟩ := h.announced q hUnknown (lives hLives)
    obtain ⟨rfl, sig, event, rfl, hCreates, hChild⟩ :=
      hReports.announces h hPlaced hAwaiting hCloned
    rw [registered, hPassed.lookup_fresh hCreates hChild hUnknown rfl] at hFresh
    cases hFresh
  · rw [Tracees.cloned_after] at hCloned
    obtain ⟨rfl, sig, event, rfl, hCreates, _⟩ :=
      hReports.announces h hPlaced hAwaiting (Tracees.cloned_observe hCloned)
    rw [Tracees.cloned_observe_creates hStatus hCreates] at hCloned
    cases hCloned
  · cases hPassed with
    | next => exact .inl rfl
    | await => exact .inr ⟨_, rfl⟩
  · cases hPassed with
    | next => cases hw
    | await hDispatched =>
      cases hDispatched with
      | @clone p' _ sig event _ _ _ hEvent _ hRegister hFlow =>
        rcases hFlow with ⟨_, ⟨⟩, rfl⟩ | ⟨_, hFlow, _⟩
        · cases hReports.event_eq rfl
          rw [List.mem_singleton.mp hw]
          refine ⟨hRegister.frame.1.trans hCurrent, fun hDying => ?_⟩
          rcases Tracees.dying_of_observe (Tracees.dying_after.mp hDying) with hOld | ⟨_, hExit⟩
          · cases hReports.death hOld
          · rw [hStatus] at hExit
            cases hExit
            cases hEvent
        · cases hFlow
  · rw [Tracees.newborn_after] at hBorn
    have hOld : t.phase q = some .newborn := by
      rcases Tracees.phase_observe (t := t) hStatus q with hSame | ⟨_, hHalted⟩
      · rwa [hSame] at hBorn
      · exact absurd hBorn hHalted.not_moving.2
    cases hKnown : s.registered q with
    | true =>
      obtain ⟨w, hw, _⟩ := h.newborn q hKnown hOld
      cases hw
    | false => exact newborn_reported hPlaced hStatus hPassed hKnown hq hOld

end Orderly

namespace Tracees

theorem cloned_observe_attach (hStatus : r.status = .ok (.stopped q .SIGSTOP)) (p : Pid) :
    (t.observe r).cloned p = t.cloned p := by
  simp only [observe, hStatus, ne_eq, not_true_eq_false, false_and, if_false]
  exact cloned_setPhase t q p .held

theorem attach_phase (hStatus : r.status = .ok (.stopped q .SIGSTOP))
    (hBorn : t.phase q = some .newborn) (q' : Pid) :
    (t.observe r).phase q' = if q' = q then some .held else t.phase q' := by
  rw [phase_observe_attach hStatus, phase_setPhase, hBorn]
  rfl

theorem dying_of_attach (hStatus : r.status = .ok (.stopped q .SIGSTOP)) {q' : Pid}
    (h : (t.observe r).Dying q') : t.Dying q' := by
  rcases dying_of_observe h with hOld | ⟨_, hExit⟩
  · exact hOld
  · rw [hStatus] at hExit
    cases hExit

end Tracees

theorem Passed.attached_last {w : Await}
    (h : Passed k s [w] (.stopped w.child .SIGSTOP) (.wait awaits') s') :
    awaits' = [] ∧ s'.threads = s.threads := by
  cases h with
  | again hOther => exact absurd rfl hOther
  | await hDispatched => cases hDispatched
  | attached hRelease hResume hTail =>
    have hThreads := (resumeTask_threads hResume).trans (release_frame hRelease).1
    rcases hTail with ⟨_, hTail⟩ | ⟨hMore, _⟩
    · exact ⟨rfl, hTail.threads.trans hThreads⟩
    · exact absurd rfl hMore

namespace Orderly

theorem early (h : Orderly s [] t creates) (hStatus : r.status = .ok (.stopped q .SIGSTOP))
    (hBorn : t.phase q = some .newborn) (hThreads : s'.threads = s.threads)
    (hCurrent : s'.current = s.current) (hEffects : s'.effects = []) :
    Orderly s' [] ((t.observe r).after s') creates := by
  rw [Tracees.after_nil hEffects]
  have phase := Tracees.attach_phase hStatus hBorn
  refine ⟨?_, fun q' hq => ?_, fun q' hFresh hLives => ?_, fun p q' hCloned => ?_, .inl rfl,
    fun w hw => (by cases hw), fun q' hKnown hNew => ?_⟩
  · simp only [registered_of_threads hThreads, isScheduled_of_threads hThreads]
    exact h.scheduled
  · rw [hCurrent]
    exact h.dying q' (Tracees.dying_of_attach hStatus hq)
  · rw [registered_of_threads hThreads] at hFresh
    have hLived : t.phase q' ≠ none := by
      rw [phase] at hLives
      split at hLives
      · rename_i hEq
        simp [hEq, hBorn]
      · exact hLives
    obtain ⟨p, hCloned⟩ := h.announced q' hFresh hLived
    exact ⟨p, (Tracees.cloned_observe_attach hStatus p).trans hCloned⟩
  · rw [Tracees.cloned_observe_attach hStatus] at hCloned
    obtain ⟨hRan, hCreates⟩ := h.cloning p q' hCloned
    have hne : p ≠ q := by
      rintro rfl
      rw [hBorn] at hRan
      cases hRan
    rw [phase, if_neg hne]
    exact ⟨hRan, hCreates⟩
  · rw [registered_of_threads hThreads] at hKnown
    rw [phase] at hNew
    split at hNew
    · cases hNew
    · exact h.newborn q' hKnown hNew

theorem returned {w : Await} (h : Orderly s [w] t creates) (hPlaced : Placed s [w] t)
    (hAwaiting : Awaiting s [w] t) (hStatus : r.status = .ok (.stopped w.child .SIGSTOP))
    (hAllows : t.allows r = true) (hThreads : s'.threads = s.threads) (creates' : Pid → Prop) :
    Orderly s' [] ((t.observe r).after s') creates' := by
  have hBorn := Tracees.allows_attach hStatus hAllows
  have phase := Tracees.attach_phase hStatus hBorn
  refine ⟨?_, fun q hq => ?_, fun q hFresh hLives => ?_, fun p q hCloned => ?_, .inl rfl,
    fun w hw => (by cases hw), fun q hKnown hNew => ?_⟩
  · simp only [registered_of_threads hThreads, isScheduled_of_threads hThreads]
    exact h.scheduled
  · have hOld := Tracees.dying_of_attach hStatus (Tracees.dying_after.mp hq)
    obtain ⟨hParent, hNot⟩ := h.parent w (List.mem_singleton_self w)
    cases hParent.symm.trans (h.dying q hOld)
    exact absurd hOld hNot
  · rw [ne_eq, Tracees.phase_after_eq_none, phase] at hLives
    rw [registered_of_threads hThreads] at hFresh
    have hLived : t.phase q ≠ none := by
      split at hLives
      · rename_i hEq
        simp [hEq, hBorn]
      · exact hLives
    obtain ⟨_, _, _, _, hNone⟩ := h.creator hPlaced hAwaiting hFresh hLived
    cases hNone
  · rw [Tracees.cloned_after, Tracees.cloned_observe_attach hStatus] at hCloned
    cases (h.runs hPlaced hAwaiting (.inl (h.cloning p q hCloned).1)).2
  · rw [Tracees.newborn_after, phase] at hNew
    split at hNew
    · cases hNew
    · rename_i hne
      exact absurd (h.awaited hPlaced hAwaiting hNew) hne

end Orderly

namespace World

variable {w w' : World} {c : Pid}

theorem spawn_orderly {thread vm : Bool}
    (h : Orderly w.machine.sv w.machine.awaits w.tracees creates)
    (hPlaced : Placed w.machine.sv w.machine.awaits w.tracees)
    (hAwaiting : Awaiting w.machine.sv w.machine.awaits w.tracees) (hCreates : creates p)
    (hStep : w.spawn p c thread vm = some w') :
    Orderly w'.machine.sv w'.machine.awaits w'.tracees creates := by
  rw [spawn_machine hStep]
  obtain ⟨x, hParent, hChild, hRan, hIdle, _, _⟩ := spawn_eq_some hStep
  have hPhase : w.tracees.phase p = some .released := by simp [Tracees.phase, hParent, hRan]
  have hNone : w.tracees.cloned p = none := by simp [Tracees.cloned, hParent, hIdle]
  have hAbsent : w.tracees.phase c = none := by simp [Tracees.phase, hChild]
  have hAwaits := (h.runs hPlaced hAwaiting (.inl hPhase)).2
  have hFresh : w.machine.sv.registered c = false := by
    cases hKnown : w.machine.sv.registered c with
    | false => rfl
    | true =>
      obtain ⟨a, ha, _⟩ := hPlaced.absent c hKnown hAbsent
      rw [hAwaits] at ha
      cases ha
  have hDying (q : Pid) (hq : w'.tracees.Dying q) : w.tracees.Dying q := by
    rw [Tracees.Dying, spawn_phase hStep] at hq
    split at hq
    · simp at hq
    · exact hq
  refine ⟨h.scheduled, fun q hq => h.dying q (hDying q hq), fun q hUnknown hLives => ?_,
    fun p' q hCloned => ?_, h.single,
    fun a ha => ⟨(h.parent a ha).1, fun hq => (h.parent a ha).2 (hDying _ hq)⟩,
    fun q hKnown hBorn => ?_⟩
  · have hp : p ≠ c := by
      rintro rfl
      rw [hPhase] at hAbsent
      cases hAbsent
    by_cases hEq : q = c
    · refine ⟨p, ?_⟩
      rw [spawn_cloned hStep, if_neg hp, if_pos rfl, hEq]
    · rw [spawn_phase hStep, if_neg hEq] at hLives
      obtain ⟨p', hCloned⟩ := h.announced q hUnknown hLives
      refine ⟨p', ?_⟩
      rw [spawn_cloned hStep, if_neg, if_neg, hCloned]
      · rintro rfl
        rw [hNone] at hCloned
        cases hCloned
      · rintro rfl
        simp [Tracees.cloned, hChild] at hCloned
  · rw [spawn_cloned hStep] at hCloned
    rw [spawn_phase hStep]
    split at hCloned
    · cases hCloned
    · rename_i hne
      rw [if_neg hne]
      split at hCloned
      · rename_i hEq
        rw [hEq]
        exact ⟨hPhase, hCreates⟩
      · exact h.cloning p' q hCloned
  · rw [spawn_phase hStep] at hBorn
    split at hBorn
    · rename_i hEq
      rw [hEq, hFresh] at hKnown
      cases hKnown
    · exact h.newborn q hKnown hBorn

theorem exec_orderly (h : Orderly w.machine.sv w.machine.awaits w.tracees creates)
    (hStep : w.exec p = some w') :
    Orderly w'.machine.sv w'.machine.awaits w'.tracees creates := by
  rw [exec_machine hStep]
  have hDying (q : Pid) : w'.tracees.Dying q ↔ w.tracees.Dying q :=
    Tracees.dying_congr (exec_phase hStep q)
  refine ⟨h.scheduled, fun q hq => h.dying q ((hDying q).mp hq), ?_, ?_, h.single,
    fun a ha => ⟨(h.parent a ha).1, fun hq => (h.parent a ha).2 ((hDying _).mp hq)⟩, ?_⟩
  · simp only [exec_phase hStep, exec_cloned hStep]
    exact h.announced
  · simp only [exec_phase hStep, exec_cloned hStep]
    exact h.cloning
  · simp only [exec_phase hStep]
    exact h.newborn

end World

end Dtrun
