import Dtrun.Supervisor.Dying
import Dtrun.Supervisor.Resumes

/-! # The calls of `await_attach` in progress

The parent of an open call stays in its clone event until its own call returns. As long as it does,
it is current if it is a scheduled thread, so no thread of the queue is run meanwhile.
-/
namespace Dtrun
set_option autoImplicit false
open FiniteMap StateExcept Transition Supervisor

variable {k : Answers} {s s' v : Supervisor} {t : Tracees} {p q : Pid} {r : Report}
  {status : WaitStatus} {flow : Flow} {awaits : List Await}

namespace Tracees

/-- The task is stopped, or there is none. -/
def Halted (t : Tracees) (q : Pid) : Prop :=
  t.phase q = some .held ∨ t.phase q = some .exitStop ∨ t.phase q = none

theorem Halted.not_moving (h : t.Halted q) :
    t.phase q ≠ some .released ∧ t.phase q ≠ some .newborn := by
  rcases h with h | h | h
  · simp [h]
  · simp [h]
  · simp [h]

theorem halted_of_setPhase {t' : Tracees} {x : Phase} (hx : x = .held ∨ x = .exitStop)
    (hSame : t'.phase q = (t.setPhase p x).phase q) :
    t'.phase q = t.phase q ∨ (some p = some q ∧ t'.Halted q) := by
  rw [phase_setPhase] at hSame
  split at hSame
  · rename_i hEq
    refine .inr ⟨congrArg some hEq.symm, ?_⟩
    rw [Halted, hSame]
    cases t.phase p with
    | none => exact .inr (.inr rfl)
    | some y => exact hx.imp (congrArg some) fun h => .inl (congrArg some h)
  · exact .inl hSame

theorem phase_observe (hStatus : r.status = .ok status) (q : Pid) :
    (t.observe r).phase q = t.phase q ∨
      ((status.stop = some q ∨ status.death = some q) ∧ (t.observe r).Halted q) := by
  have stopped {p : Pid} {x : Phase} (hx : x = .held ∨ x = .exitStop)
      (hStop : status.stop = some p)
      (hSame : (t.observe r).phase q = (t.setPhase p x).phase q) :
      (t.observe r).phase q = t.phase q ∨
        ((status.stop = some q ∨ status.death = some q) ∧ (t.observe r).Halted q) :=
    (halted_of_setPhase hx hSame).imp_right fun ⟨hEq, hHalted⟩ =>
      ⟨.inl (hStop.trans hEq), hHalted⟩
  have ended {p : Pid} (hDeath : status.death = some p) : (t.observe r).phase q = t.phase q ∨
      ((status.stop = some q ∨ status.death = some q) ∧ (t.observe r).Halted q) := by
    have hPhase := phase_observe_death (t := t) hStatus hDeath q
    split at hPhase
    · rename_i hEq
      exact .inr ⟨.inr (hEq ▸ hDeath), .inr (.inr hPhase)⟩
    · exact .inl hPhase
  cases status with
  | ptraceSyscall p => exact stopped (.inl rfl) rfl (phase_observe_syscall hStatus q)
  | ptraceEvent p sig event =>
    by_cases hExit : event = .exit
    · subst hExit
      exact stopped (.inr rfl) rfl (phase_observe_dying hStatus q)
    · exact stopped (.inl rfl) rfl (phase_observe_event hStatus hExit q)
  | stopped p sig =>
    by_cases hSig : sig = .SIGSTOP
    · subst hSig
      exact stopped (.inl rfl) rfl (phase_observe_attach hStatus q)
    · have hPhase := phase_observe_signal (t := t) hStatus hSig q
      split at hPhase
      · exact .inl hPhase
      · exact stopped (.inl rfl) rfl hPhase
  | exited p code => exact ended rfl
  | signaled p sig core => exact ended rfl
  | continued p => exact .inl (by simp [observe, hStatus])
  | stillAlive => exact .inl (by simp [observe, hStatus])

theorem allows_stop_phase (hStatus : r.status = .ok status) (hStop : status.stop = some q)
    (hAllows : t.allows r = true) : (∃ sig, status = .ptraceEvent q sig .exit) ∨
      t.phase q = some .released ∨ t.phase q = some .newborn := by
  cases status with
  | ptraceSyscall p =>
    cases hStop
    exact .inr (.inl (allows_syscall hStatus hAllows))
  | ptraceEvent p sig event =>
    cases hStop
    by_cases hExit : event = .exit
    · subst hExit
      exact .inl ⟨sig, rfl⟩
    · exact .inr (.inl (allows_event hStatus hExit hAllows))
  | stopped p sig =>
    cases hStop
    by_cases hSig : sig = .SIGSTOP
    · subst hSig
      exact .inr (.inr (allows_attach hStatus hAllows))
    · exact .inr (allows_signal hStatus hSig hAllows)
  | _ => cases hStop

end Tracees

structure Awaiting (s : Supervisor) (awaits : List Await) (t : Tracees) : Prop where
  still : ∀ a ∈ awaits, t.phase a.parent ≠ some .released ∧ t.phase a.parent ≠ some .newborn
  current : ∀ a ∈ awaits, s.isScheduled a.parent = true → s.current = some a.parent
  distinct : (awaits.map Await.parent).Nodup
  /-- The parent's own clone event has been reported. -/
  told : ∀ a ∈ awaits, ∀ q, t.cloned q ≠ some a.parent

namespace Awaiting

theorem nil : Awaiting s [] t where
  still := fun _ ha => absurd ha List.not_mem_nil
  current := fun _ ha => absurd ha List.not_mem_nil
  distinct := List.nodup_nil
  told := fun _ ha => absurd ha List.not_mem_nil

theorem not_stop {a : Await} (h : Awaiting s awaits t) (ha : a ∈ awaits)
    (hStatus : r.status = .ok status) (hAllows : t.allows r = true)
    (hStop : status.stop = some a.parent) : ∃ sig, status = .ptraceEvent a.parent sig .exit := by
  rcases Tracees.allows_stop_phase hStatus hStop hAllows with hDying | hRan | hBorn
  · exact hDying
  · exact absurd hRan (h.still a ha).1
  · exact absurd hBorn (h.still a ha).2

/-- While a call is open, its parent is no scheduled thread if a status makes `current` name
somebody else. -/
theorem not_givesUp {a : Await} (h : Awaiting s awaits t) (hPlaced : Placed s awaits t)
    (ha : a ∈ awaits) (hStatus : r.status = .ok status) (hAllows : t.allows r = true)
    (hFlow : ∀ code, flow ≠ .exit code) (hDispatched : Dispatched r.answers s status flow s')
    (hScheduled : s.isScheduled a.parent = true) (hKnown : s'.registered a.parent = true) :
    ¬ s.GivesUp status := by
  have hCurrent := h.current a ha hScheduled
  rintro (⟨p, rfl, hYes⟩ | ⟨p, hDeath, hNow, _⟩)
  · have hRan := Tracees.allows_syscall hStatus hAllows
    cases hCurrent.symm.trans (hPlaced.single p hYes hRan)
    exact (h.still a ha).1 hRan
  · cases hCurrent.symm.trans hNow
    rw [hDispatched.unregistered hDeath hFlow] at hKnown
    cases hKnown

theorem observed (h : Awaiting s awaits t) (hStatus : r.status = .ok status) :
    ∀ a ∈ awaits, (t.observe r).phase a.parent ≠ some .released ∧
      (t.observe r).phase a.parent ≠ some .newborn := by
  intro a ha
  rcases Tracees.phase_observe (t := t) hStatus a.parent with hSame | ⟨_, hHalted⟩
  · rw [hSame]
    exact h.still a ha
  · exact hHalted.not_moving

theorem not_child {a : Await} (h : Awaiting s awaits t) (ha : a ∈ awaits)
    (hStatus : r.status = .ok status) (hAllows : t.allows r = true) {sig : Signal} {event : Event}
    (hEvent : status = .ptraceEvent p sig event) (hCreates : event.creates = true) :
    r.answers.getevent p ≠ .ok a.parent := by
  intro hChild
  subst hEvent
  exact h.told a ha p (Tracees.allows_creates hStatus hCreates hChild hAllows)

theorem kept (h : Awaiting s awaits t) (hPlaced : Placed s awaits t)
    (hEffects : s.effects = []) (hStatus : r.status = .ok status) (hAllows : t.allows r = true)
    (hFlow : ∀ code, flow ≠ .exit code) (hDispatched : Dispatched r.answers s status flow s')
    (hPlaced' : Placed s' (flow.opened ++ awaits) ((t.observe r).after s')) :
    Awaiting s' awaits ((t.observe r).after s') := by
  have scheduled {a : Await} (ha : a ∈ awaits) (hYes : s'.isScheduled a.parent = true) :
      s.isScheduled a.parent = true := by
    rcases hDispatched.isScheduled_of hFlow hYes with
      hOld | ⟨p, sig, event, hEvent, hCreates, hChild⟩
    · exact hOld
    · exact absurd hChild (h.not_child ha hStatus hAllows hEvent hCreates)
  have halted := h.observed hStatus
  refine ⟨fun a ha => ⟨fun hRan => ?_, fun hBorn => ?_⟩, fun a ha hYes => ?_, h.distinct,
    fun a ha q hCloned => ?_⟩
  · rcases Tracees.released_after hRan with hOld | ⟨hHeld, hResumes⟩
    · exact (halted a ha).1 hOld
    · have hDying {sig : Signal} (hExit : status = .ptraceEvent a.parent sig .exit) : False := by
        subst hExit
        rw [Tracees.phase_observe_dying hStatus, Tracees.phase_setPhase, if_pos rfl] at hHeld
        cases hPhase : t.phase a.parent <;> simp [hPhase] at hHeld
      cases hDispatched.letsGo hEffects hResumes with
      | dying hExit => exact hDying hExit
      | own hStop =>
        obtain ⟨sig, hExit⟩ := h.not_stop ha hStatus hAllows hStop
        exact hDying hExit
      | child hEvent hCreates hChild =>
        exact h.not_child ha hStatus hAllows hEvent hCreates hChild
      | next hGivesUp hCurrent hKnown =>
        rcases hPlaced'.current _ hCurrent with ⟨hYes, _⟩ | ⟨hNot, _⟩
        · exact h.not_givesUp hPlaced ha hStatus hAllows hFlow hDispatched (scheduled ha hYes)
            hKnown hGivesUp
        · rw [hNot] at hKnown
          cases hKnown
  · exact (halted a ha).2 (Tracees.newborn_after.mp hBorn)
  · have hOld := scheduled ha hYes
    rcases hDispatched.current with hSame | hGivesUp
    · exact hSame.trans (h.current a ha hOld)
    · exact absurd hGivesUp (h.not_givesUp hPlaced ha hStatus hAllows hFlow hDispatched hOld
        (registered_of_isScheduled hYes))
  · rw [Tracees.cloned_after] at hCloned
    exact h.told a ha q (Tracees.cloned_observe hCloned)

theorem opened {w : Await} (h : Awaiting s awaits t) (hPlaced : Placed s awaits t)
    (hEffects : s.effects = []) (hStatus : r.status = .ok status) (hAllows : t.allows r = true)
    (hDispatched : Dispatched r.answers s status (.await w) s')
    (hPlaced' : Placed s' (w :: awaits) ((t.observe r).after s')) :
    Awaiting s' (w :: awaits) ((t.observe r).after s') := by
  have hKept := h.kept hPlaced hEffects hStatus hAllows (by simp) hDispatched hPlaced'
  cases hDispatched with
  | @clone p child sig event v _ _ hEvent hChild hRegister hFlow =>
    rcases hFlow with ⟨_, ⟨⟩, rfl⟩ | ⟨_, ⟨⟩, _⟩
    have hExit : event ≠ .exit := by
      rintro rfl
      cases hEvent
    have hRan := Tracees.allows_event hStatus hExit hAllows
    obtain ⟨hKnown, hCurrent⟩ := hPlaced.ran hRan
    obtain ⟨hFresh, _⟩ := hPlaced.expected p child
      (Tracees.allows_creates hStatus hEvent hChild hAllows)
    have hHeld : (t.observe r).phase p = some .held := by
      rw [Tracees.phase_observe_event hStatus hExit, Tracees.phase_setPhase, if_pos rfl, hRan]
      rfl
    have hNot : ¬ s'.Resumes p := by
      intro hResumes
      rcases hRegister.letsGo hResumes with hOld | ⟨rfl, _⟩
      · exact Resumes.not_nil hEffects (hOld.congr rfl)
      · rw [hFresh] at hKnown
        cases hKnown
    have hScheduled : s'.isScheduled p = s.isScheduled p := by
      rcases hRegister.lookup p with hKept | ⟨hEq, _⟩
      · rw [Supervisor.isScheduled, hKept]
        rfl
      · rw [hEq, hFresh] at hKnown
        cases hKnown
    refine ⟨fun a ha => ?_, fun a ha hYes => ?_, ?_, fun a ha q hCloned => ?_⟩
    · rcases List.mem_cons.mp ha with rfl | ha
      · constructor
        · intro hNow
          rcases Tracees.released_after hNow with hNow | ⟨_, hResumes⟩
          · simp [hHeld] at hNow
          · exact hNot hResumes
        · intro hNow
          rw [Tracees.newborn_after, hHeld] at hNow
          cases hNow
      · exact hKept.still a ha
    · rcases List.mem_cons.mp ha with rfl | ha
      · exact hRegister.frame.1.trans (hCurrent (hScheduled.symm.trans hYes))
      · exact hKept.current a ha hYes
    · refine List.nodup_cons.mpr ⟨fun hMem => ?_, h.distinct⟩
      obtain ⟨a, ha, hEq⟩ := List.mem_map.mp hMem
      exact (h.still a ha).1 (hEq ▸ hRan)
    · rcases List.mem_cons.mp ha with rfl | ha
      · rw [Tracees.cloned_after] at hCloned
        have hUnknown := (hPlaced.expected q p (Tracees.cloned_observe hCloned)).1
        rw [hKnown] at hUnknown
        cases hUnknown
      · exact hKept.told a ha q hCloned

theorem returned {w : Await} {v v' : Supervisor} (h : Awaiting s (w :: awaits) t)
    (hEffects : s.effects = []) (hStatus : r.status = .ok (.stopped w.child .SIGSTOP))
    (hAllows : t.allows r = true)
    (hRelease : Dtrun.release k w.child
      { s with pendingStart := s.pendingStart.erase w.child } = .ok () v)
    (hResume : Dtrun.resumeTask k w.parent v = .ok () v') :
    Awaiting v' awaits ((t.observe r).after v') := by
  have hBorn := Tracees.allows_attach hStatus hAllows
  have hDistinct := List.nodup_cons.mp h.distinct
  have halted := h.observed hStatus
  have hCurrent : v'.current = s.current := by
    have hv := (release_frame hRelease).2.2
    rcases resumeTask_ok hResume with ⟨_, rfl, _⟩ | ⟨_, _, rfl⟩
    · exact hv
    · exact hv
  have hThreads : v'.threads = s.threads :=
    (resumeTask_threads hResume).trans (release_frame hRelease).1
  refine ⟨fun a ha => ⟨fun hRan => ?_, fun hNew => ?_⟩, fun a ha hYes => ?_, hDistinct.2,
    fun a ha q hCloned => ?_⟩
  · rcases Tracees.released_after hRan with hNow | ⟨_, hResumes⟩
    · exact (halted a (List.mem_cons_of_mem _ ha)).1 hNow
    · rcases hResumes.resumeTask hResume with hv | ⟨hEq, _⟩
      · rcases hv.release hRelease with hOld | ⟨hEq, _⟩
        · exact Resumes.not_nil hEffects (hOld.congr rfl)
        · exact (h.still a (List.mem_cons_of_mem _ ha)).2 (hEq ▸ hBorn)
      · exact hDistinct.1 (List.mem_map.mpr ⟨a, ha, hEq⟩)
  · exact (halted a (List.mem_cons_of_mem _ ha)).2 (Tracees.newborn_after.mp hNew)
  · rw [isScheduled_of_threads hThreads] at hYes
    exact hCurrent.trans (h.current a (List.mem_cons_of_mem _ ha) hYes)
  · rw [Tracees.cloned_after] at hCloned
    exact h.told a (List.mem_cons_of_mem _ ha) q (Tracees.cloned_observe hCloned)

theorem passed {awaits' : List Await} (h : Awaiting s awaits t) (hPlaced : Placed s awaits t)
    (hUnique : t.Announced) (hEffects : s.effects = []) (hStatus : r.status = .ok status)
    (hAllows : t.allows r = true)
    (hPassed : Passed r.answers s awaits status (.wait awaits') s') :
    Awaiting s' awaits' ((t.observe r).after s') := by
  have hPlaced' := hPlaced.passed hUnique hEffects hStatus hAllows hPassed
  cases hPassed with
  | next => exact nil
  | again hOther hDispatched =>
    exact h.kept hPlaced hEffects hStatus hAllows (by simp) hDispatched hPlaced'
  | await hDispatched => exact h.opened hPlaced hEffects hStatus hAllows hDispatched hPlaced'
  | attached hRelease hResume hTail =>
    rcases hTail with ⟨rfl, _⟩ | ⟨_, rfl⟩
    · exact nil
    · exact h.returned hEffects hStatus hAllows hRelease hResume

end Awaiting

namespace World

/-- In every reachable world whose supervisor is still running, the parents of the open calls wait
in their clone events. -/
theorem awaiting {pid : Pid} {seed : U64} {w : World} (h : (system pid seed).Reach Unheld w)
    (hOpen : w.machine.result = none) : Awaiting w.machine.sv w.machine.awaits w.tracees := by
  refine System.Reach.invariant (I := fun w => w.machine.result = none →
    Awaiting w.machine.sv w.machine.awaits w.tracees) ?_ ?_ h hOpen
  · rintro _ ⟨k, rfl⟩ hOpen
    obtain ⟨hAwaits, _⟩ := Machine.start_wait hOpen
    change Awaiting _ (Machine.start pid seed k).awaits _
    rw [hAwaits]
    exact .nil
  · intro w l w' hReach hAwaiting hOk hStep hOpen
    cases l with
    | spawn p c thread vm =>
      have hMachine := spawn_machine hStep
      rw [hMachine] at hOpen ⊢
      have hOld := hAwaiting hOpen
      refine ⟨fun a ha => ?_, hOld.current, hOld.distinct, fun a ha q hCloned => ?_⟩
      · rw [spawn_phase hStep, if_neg (hOk.2.1 a ha).2]
        exact hOld.still a ha
      · rw [spawn_cloned hStep] at hCloned
        split at hCloned
        · cases hCloned
        · split at hCloned
          · exact (hOk.2.1 a ha).2 (Option.some.inj hCloned).symm
          · exact hOld.told a ha q hCloned
    | exec p =>
      have hMachine := exec_machine hStep
      rw [hMachine] at hOpen ⊢
      have hOld := hAwaiting hOpen
      refine ⟨fun a ha => ?_, hOld.current, hOld.distinct, fun a ha q => ?_⟩
      · rw [exec_phase hStep]
        exact hOld.still a ha
      · rw [exec_cloned hStep]
        exact hOld.told a ha q
    | report r =>
      obtain ⟨status, hRunning, hAllows, hStatus, hTracees, hPassed⟩ := observe_wait hStep hOpen
      rw [hTracees]
      have hPlaced : Placed { w.machine.sv with effects := [] } w.machine.awaits w.tracees :=
        (placed hReach hRunning).congr rfl rfl rfl rfl rfl rfl rfl
      obtain ⟨hStill, hCurrent, hDistinct, hTold⟩ := hAwaiting hRunning
      have hRead : Awaiting { w.machine.sv with effects := [] } w.machine.awaits w.tracees :=
        ⟨hStill, hCurrent, hDistinct, hTold⟩
      exact hRead.passed hPlaced (announced hReach) rfl hStatus hAllows hPassed

end World

end Dtrun
