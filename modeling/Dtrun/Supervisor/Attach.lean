import Dtrun.Supervisor.Awaiting

/-! # What an `await_attach` waits for

The loop of `await_attach` knows one way out, the attach stop of its child. If the child dies
first, or a nested call has the stop handled in between, the loop waits in vain.
-/
namespace Dtrun
set_option autoImplicit false
open FiniteMap StateExcept Transition Supervisor

variable {k : Answers} {s s' v : Supervisor} {t : Tracees} {p q : Pid} {r : Report}
  {status : WaitStatus} {flow : Flow} {awaits : List Await}

/-- The attach stop of `c` is still to come, and the supervisor knows it. -/
structure Expects (s : Supervisor) (t : Tracees) (c : Pid) : Prop where
  registered : s.registered c = true
  starting : c ∈ s.pendingStart
  newborn : t.phase c = some .newborn

structure Attaching (s : Supervisor) (awaits : List Await) (t : Tracees) : Prop where
  expects : ∀ a ∈ awaits, Expects s t a.child
  distinct : (awaits.map Await.child).Nodup

namespace Tracees

theorem newborn_observe (hStatus : r.status = .ok status) (hAllows : t.allows r = true)
    (hBorn : t.phase q = some .newborn) (hAttach : status ≠ .stopped q .SIGSTOP)
    (hExit : ∀ sig, status ≠ .ptraceEvent q sig .exit) (hDeath : status.death ≠ some q) :
    (t.observe r).phase q = some .newborn := by
  rcases phase_observe (t := t) hStatus q with hSame | ⟨hAbout, _⟩
  · exact hSame.trans hBorn
  have hStop := hAbout.resolve_right hDeath
  rcases allows_stop_phase hStatus hStop hAllows with ⟨sig, hDying⟩ | hRan | _
  · exact absurd hDying (hExit sig)
  · rw [hBorn] at hRan
    cases hRan
  cases status with
  | stopped p sig =>
    cases hStop
    have hSig : sig ≠ .SIGSTOP := by
      rintro rfl
      exact hAttach rfl
    rw [phase_observe_signal hStatus hSig, if_pos hBorn]
    exact hBorn
  | ptraceSyscall p =>
    cases hStop
    have hRan := allows_syscall hStatus hAllows
    rw [hBorn] at hRan
    cases hRan
  | ptraceEvent p sig event =>
    cases hStop
    have hOther : event ≠ .exit := by
      rintro rfl
      exact hExit sig rfl
    have hRan := allows_event hStatus hOther hAllows
    rw [hBorn] at hRan
    cases hRan
  | _ => cases hStop

end Tracees

/-- The status is not the end of `c`'s wait: neither its attach stop nor its exit stop nor its
death. -/
structure Spares (status : WaitStatus) (c : Pid) : Prop where
  attach : status ≠ .stopped c .SIGSTOP
  exit : ∀ sig, status ≠ .ptraceEvent c sig .exit
  death : status.death ≠ some c

namespace Expects

theorem dispatched {c : Pid} (h : Expects s t c) (hStatus : r.status = .ok status)
    (hAllows : t.allows r = true) (hSpares : Spares status c)
    (hDispatched : Dispatched r.answers s status flow s') :
    Expects s' ((t.observe r).after s') c where
  registered := hDispatched.registered_mono h.registered hSpares.death
  starting := hDispatched.pendingStart h.starting hSpares.attach hSpares.death
  newborn := Tracees.newborn_after.mpr
    (Tracees.newborn_observe hStatus hAllows h.newborn hSpares.attach hSpares.exit hSpares.death)

end Expects

namespace World

/-- The attach stops that are awaited come: no awaited child ends before its own, and none is
reported while a call nested in the child's is open. A child whose attach stop has not been seen
lives when its clone event is reported. -/
def AttachComes (w : World) : Label → Prop
  | .report r => match r.status with
    | .ok (.ptraceEvent p _ .exit) | .ok (.exited p _) | .ok (.signaled p _ _) =>
      ∀ a ∈ w.machine.awaits, a.child ≠ p
    | .ok (.ptraceEvent p _ event) => event.creates → match r.answers.getevent p with
      | .ok c => w.tracees.phase c = some .newborn ∨ c ∈ w.machine.sv.stoppedPending
      | .error _ => True
    | .ok (.stopped p .SIGSTOP) => ∀ a ∈ w.machine.awaits.tail, a.child ≠ p
    | _ => True
  | _ => True

instance (w : World) : (l : Label) → Decidable (w.AttachComes l)
  | .spawn _ _ _ _ | .exec _ => .isTrue trivial
  | .report ⟨.error e, answers⟩ => .isTrue trivial
  | .report ⟨.ok status, answers⟩ => by
    rcases status with p | p | ⟨p, sig⟩ | ⟨p, _, event⟩ | _ | _ | _ <;> dsimp only [AttachComes]
    · infer_instance
    · infer_instance
    · rcases sig <;> infer_instance
    · rcases event <;> dsimp only <;> generalize answers.getevent p = c <;> rcases c <;>
        infer_instance
    all_goals exact .isTrue trivial

variable {w : World}

theorem AttachComes.spares (h : w.AttachComes (.report r)) (hStatus : r.status = .ok status)
    {a : Await} (ha : a ∈ w.machine.awaits)
    (hOther : a ∈ w.machine.awaits.tail ∨ status ≠ .stopped a.child .SIGSTOP) :
    Spares status a.child := by
  refine ⟨?_, ?_, ?_⟩
  · rintro rfl
    rcases hOther with hTail | hOther
    · simp only [AttachComes, hStatus] at h
      exact h a hTail rfl
    · exact hOther rfl
  · rintro sig rfl
    simp only [AttachComes, hStatus] at h
    exact h a ha rfl
  · intro hDeath
    cases status with
    | exited p code =>
      cases hDeath
      simp only [AttachComes, hStatus] at h
      exact h a ha rfl
    | signaled p sig core =>
      cases hDeath
      simp only [AttachComes, hStatus] at h
      exact h a ha rfl
    | _ => cases hDeath

theorem AttachComes.child (h : w.AttachComes (.report r)) {sig : Signal} {event : Event} {c : Pid}
    (hStatus : r.status = .ok (.ptraceEvent p sig event)) (hEvent : event.creates = true)
    (hChild : r.answers.getevent p = .ok c) :
    w.tracees.phase c = some .newborn ∨ c ∈ w.machine.sv.stoppedPending := by
  simp only [AttachComes, hStatus] at h
  cases event with
  | exit => cases hEvent
  | _ => simpa [hChild] using h hEvent

end World

namespace Attaching

theorem nil : Attaching s [] t where
  expects := fun _ ha => absurd ha List.not_mem_nil
  distinct := List.nodup_nil

theorem opened {w : Await} (h : Attaching s awaits t) (hPlaced : Placed s awaits t)
    (hStatus : r.status = .ok status) (hAllows : t.allows r = true)
    (hSpares : ∀ a ∈ awaits, Spares status a.child)
    (hBorn : ∀ p sig event c, status = .ptraceEvent p sig event → event.creates = true →
      r.answers.getevent p = .ok c → t.phase c = some .newborn ∨ c ∈ s.stoppedPending)
    (hDispatched : Dispatched r.answers s status (.await w) s') :
    Attaching s' (w :: awaits) ((t.observe r).after s') := by
  have hKept (a : Await) (ha : a ∈ awaits) : Expects s' ((t.observe r).after s') a.child :=
    (h.expects a ha).dispatched hStatus hAllows (hSpares a ha) hDispatched
  cases hDispatched with
  | @clone p child sig event v _ _ hEvent hChild hRegister hFlow =>
    rcases hFlow with ⟨hStart, ⟨⟩, rfl⟩ | ⟨_, ⟨⟩, _⟩
    have hExit : event ≠ .exit := by
      rintro rfl
      cases hEvent
    have hRan := Tracees.allows_event hStatus hExit hAllows
    obtain ⟨hKnown, _⟩ := hPlaced.ran hRan
    obtain ⟨hFresh, _⟩ := hPlaced.expected p child
      (Tracees.allows_creates hStatus hEvent hChild hAllows)
    have hne : child ≠ p := by
      rintro rfl
      rw [hFresh] at hKnown
      cases hKnown
    cases hRegister with
    | again hYes =>
      have hYes' : s.registered child = true := hYes
      rw [hFresh] at hYes'
      cases hYes'
    | released _ _ hRelease hQuiet =>
      rw [hQuiet.pendingStart, (release_frame hRelease).2.1] at hStart
      rw [(hPlaced.starting child hStart).1] at hFresh
      cases hFresh
    | expected _ hStopped hQuiet =>
      have hNew := (hBorn p sig event child rfl hEvent hChild).resolve_right hStopped
      refine ⟨fun a ha => ?_, ?_⟩
      · rcases List.mem_cons.mp ha with rfl | ha
        · refine ⟨?_, hStart, Tracees.newborn_after.mpr ?_⟩
          · rw [hQuiet.registered]
            simp [registered, Map.get_insert_self]
          · refine Tracees.newborn_observe hStatus hAllows hNew (by simp) (fun sig' hEq => ?_)
              (by simp [WaitStatus.death])
            exact hne (WaitStatus.ptraceEvent.inj hEq).1.symm
        · exact hKept a ha
      · refine List.nodup_cons.mpr ⟨fun hMem => ?_, h.distinct⟩
        obtain ⟨a, ha, hEq⟩ := List.mem_map.mp hMem
        have hOld := (h.expects a ha).registered
        simp only at hEq
        rw [hEq, hFresh] at hOld
        cases hOld

theorem returned {w : Await} {v v' : Supervisor} (h : Attaching s (w :: awaits) t)
    (hStatus : r.status = .ok (.stopped w.child .SIGSTOP)) (hAllows : t.allows r = true)
    (hRelease : Dtrun.release k w.child
      { s with pendingStart := s.pendingStart.erase w.child } = .ok () v)
    (hResume : Dtrun.resumeTask k w.parent v = .ok () v') :
    Attaching v' awaits ((t.observe r).after v') := by
  have hDistinct := List.nodup_cons.mp h.distinct
  have hThreads : v'.threads = s.threads :=
    (resumeTask_threads hResume).trans (release_frame hRelease).1
  have hStarts : v'.pendingStart = s.pendingStart.erase w.child := by
    have hv := (release_frame hRelease).2.1
    rcases resumeTask_ok hResume with ⟨_, rfl, _⟩ | ⟨_, _, rfl⟩
    · exact hv
    · exact hv
  refine ⟨fun a ha => ?_, hDistinct.2⟩
  have hOld := h.expects a (List.mem_cons_of_mem _ ha)
  have hne : a.child ≠ w.child := fun hEq => hDistinct.1 (List.mem_map.mpr ⟨a, ha, hEq⟩)
  refine ⟨?_, ?_, Tracees.newborn_after.mpr ?_⟩
  · rw [registered_of_threads hThreads]
    exact hOld.registered
  · rw [hStarts]
    exact Finset.mem_erase_of_ne_of_mem hne hOld.starting
  · refine Tracees.newborn_observe hStatus hAllows hOld.newborn (fun hEq => ?_) (by simp)
      (by simp [WaitStatus.death])
    exact hne (WaitStatus.stopped.inj hEq).1.symm

theorem passed {awaits' : List Await} (h : Attaching s awaits t) (hPlaced : Placed s awaits t)
    (hStatus : r.status = .ok status) (hAllows : t.allows r = true)
    (hSpares : ∀ a ∈ awaits, a ∈ awaits.tail ∨ status ≠ .stopped a.child .SIGSTOP →
      Spares status a.child)
    (hBorn : ∀ p sig event c, status = .ptraceEvent p sig event → event.creates = true →
      r.answers.getevent p = .ok c → t.phase c = some .newborn ∨ c ∈ s.stoppedPending)
    (hPassed : Passed r.answers s awaits status (.wait awaits') s') :
    Attaching s' awaits' ((t.observe r).after s') := by
  cases hPassed with
  | next => exact nil
  | @again w outer _ _ hOther hDispatched =>
    refine ⟨fun a ha => (h.expects a ha).dispatched hStatus hAllows (hSpares a ha ?_) hDispatched,
      h.distinct⟩
    rcases List.mem_cons.mp ha with rfl | ha
    · exact .inr hOther
    · exact .inl ha
  | await hDispatched =>
    refine h.opened hPlaced hStatus hAllows (fun a ha => hSpares a ha (.inr ?_)) hBorn hDispatched
    rintro rfl
    cases hDispatched
  | attached hRelease hResume hTail =>
    rcases hTail with ⟨rfl, _⟩ | ⟨_, rfl⟩
    · exact nil
    · exact h.returned hStatus hAllows hRelease hResume

end Attaching

namespace World

variable {pid : Pid} {seed : U64} {w : World}

/-- A call of `await_attach` waits only for an attach stop that is to come, and with it returns and
lets its parent run. -/
structure AwaitsAttach (w : World) : Prop where
  waits : w.machine.result = none → ∀ a outer, w.machine.awaits = a :: outer →
    Expects w.machine.sv w.tracees a.child
  returns : ∀ a outer r w', w.machine.awaits = a :: outer →
    r.status = .ok (.stopped a.child .SIGSTOP) → w.observe r = some w' →
    w'.machine.result = none → w'.machine.awaits = outer ∧ w'.machine.sv.Resumes a.parent

/-- The condition on a step: no pid is reused too early, and no awaited attach stop is missed. -/
def Attaches (w : World) (l : Label) : Prop := w.Unheld l ∧ w.AttachComes l

instance (w : World) (l : Label) : Decidable (w.Attaches l) :=
  inferInstanceAs (Decidable (_ ∧ _))

theorem attaching (h : (system pid seed).Reach Attaches w) (hOpen : w.machine.result = none) :
    Attaching w.machine.sv w.machine.awaits w.tracees := by
  refine System.Reach.invariant (I := fun w => w.machine.result = none →
    Attaching w.machine.sv w.machine.awaits w.tracees) ?_ ?_ h hOpen
  · rintro _ ⟨k, rfl⟩ hOpen
    obtain ⟨hAwaits, _⟩ := Machine.start_wait hOpen
    change Attaching _ (Machine.start pid seed k).awaits _
    rw [hAwaits]
    exact .nil
  · intro w l w' hReach hAttaching hOk hStep hOpen
    cases l with
    | spawn p c thread vm =>
      have hMachine := spawn_machine hStep
      rw [hMachine] at hOpen ⊢
      have hOld := hAttaching hOpen
      refine ⟨fun a ha => ⟨(hOld.expects a ha).registered, (hOld.expects a ha).starting, ?_⟩,
        hOld.distinct⟩
      rw [spawn_phase hStep, if_neg (hOk.1.2.1 a ha).1]
      exact (hOld.expects a ha).newborn
    | exec p =>
      have hMachine := exec_machine hStep
      rw [hMachine] at hOpen ⊢
      have hOld := hAttaching hOpen
      refine ⟨fun a ha => ⟨(hOld.expects a ha).registered, (hOld.expects a ha).starting, ?_⟩,
        hOld.distinct⟩
      rw [exec_phase hStep]
      exact (hOld.expects a ha).newborn
    | report r =>
      obtain ⟨status, hRunning, hAllows, hStatus, hTracees, hPassed⟩ := observe_wait hStep hOpen
      rw [hTracees]
      have hPlaced : Placed { w.machine.sv with effects := [] } w.machine.awaits w.tracees :=
        (placed (hReach.mono fun _ _ hBoth => hBoth.1) hRunning).congr rfl rfl rfl rfl rfl rfl rfl
      have hRead : Attaching { w.machine.sv with effects := [] } w.machine.awaits w.tracees :=
        ⟨fun a ha => { (hAttaching hRunning).expects a ha with }, (hAttaching hRunning).distinct⟩
      refine hRead.passed hPlaced hStatus hAllows (fun a ha hOther => ?_) ?_ hPassed
      · exact hOk.2.spares hStatus ha hOther
      · rintro p sig event c rfl hEvent hChild
        exact hOk.2.child hStatus hEvent hChild

/-- As long as every awaited attach stop comes, no call waits in vain. -/
theorem awaits_attach (h : (system pid seed).Reach Attaches w) : AwaitsAttach w := by
  constructor
  · intro hOpen a outer hAwaits
    exact (attaching h hOpen).expects a (hAwaits ▸ List.mem_cons_self)
  · intro a outer r w' hAwaits hStatus hStep hNext
    obtain ⟨hRunning, _, hMachine, _⟩ := observe_eq_some hStep
    have hAwaiting := awaiting (h.mono fun _ _ hBoth => hBoth.1) hRunning
    rw [hMachine] at hNext ⊢
    obtain ⟨status, hRead, hPassed⟩ := Machine.step_wait hRunning hNext
    cases hStatus.symm.trans hRead
    rw [hAwaits] at hPassed
    generalize hAfter : (w.machine.step r).awaits = awaits' at hPassed ⊢
    cases hPassed with
    | again hOther => exact absurd rfl hOther
    | await hDispatched => cases hDispatched
    | @attached _ _ v v' _ hRelease hResume hTail =>
      refine ⟨rfl, ?_⟩
      have hv' : v'.Resumes a.parent := by
        rcases resumeTask_ok hResume with ⟨_, rfl, _⟩ | ⟨hYes, hNot, _⟩
        · exact ⟨_, List.mem_append_right _ (List.mem_singleton_self _)⟩
        · obtain ⟨hThreads, _, hCurrent⟩ := release_frame hRelease
          rw [isScheduled_of_threads hThreads] at hYes
          rw [hCurrent] at hNot
          exact absurd (hAwaiting.current a (hAwaits ▸ List.mem_cons_self) hYes) hNot
      rcases hTail with ⟨_, hTail⟩ | ⟨_, rfl⟩
      · exact hv'.runsOn hTail
      · exact hv'

/-- The init forks process 2, which then forks process 3; before that one has stopped, the init
forks process 4. -/
def nestedForks : List Label :=
  [.spawn 1 2 false false, .report (.created 1 .fork 2), .report (.plain (.stopped 2 .SIGSTOP)),
   .spawn 2 3 false false, .report (.created 2 .fork 3),
   .spawn 1 4 false false, .report (.created 1 .fork 4)]

theorem awaits_attach_nested : ∃ w,
    (system 1 0).exec Attaches (start 1 0 {}) nestedForks = some w ∧
      w.machine.awaits = [⟨4, 1⟩, ⟨3, 2⟩] ∧ AwaitsAttach w := by
  have hRun : ((system 1 0).exec Attaches (start 1 0 {}) nestedForks).map (fun w =>
      w.machine.awaits) = some [⟨4, 1⟩, ⟨3, 2⟩] := by decide +kernel
  obtain ⟨w, hExec, hAwaits⟩ := Option.map_eq_some_iff.mp hRun
  exact ⟨w, hExec, hAwaits, awaits_attach (System.reach_of_exec ⟨{}, rfl⟩ hExec)⟩

/-- Process 3 stops while the init's call is open, and then process 4. -/
def missedStop : List Label :=
  nestedForks ++ [.report (.plain (.stopped 3 .SIGSTOP)), .report (.plain (.stopped 4 .SIGSTOP))]

/-- The init forks process 2, which is killed before it has stopped. -/
def childDies : List Label :=
  [.spawn 1 2 false false, .report (.created 1 .fork 2),
   .report (.plain (.signaled 2 .SIGKILL false))]

/-- Process 2 waits for the attach stop of process 3, which has been handled in the nested call; and
the init waits for that of process 2, which is dead. -/
theorem not_awaits_attach :
    (∃ w, (system 1 0).exec Unheld (start 1 0 {}) missedStop = some w ∧ ¬ AwaitsAttach w) ∧
      ∃ w, (system 1 0).exec Unheld (start 1 0 {}) childDies = some w ∧ ¬ AwaitsAttach w := by
  constructor
  · have hRun : ((system 1 0).exec Unheld (start 1 0 {}) missedStop).map (fun w =>
        (w.machine.result.isNone, w.machine.awaits, decide (3 ∈ w.machine.sv.pendingStart))) =
        some (true, [⟨3, 2⟩], false) := by decide +kernel
    obtain ⟨w, hExec, hw⟩ := Option.map_eq_some_iff.mp hRun
    simp only [Prod.mk.injEq, Option.isNone_iff_eq_none, decide_eq_false_iff_not] at hw
    obtain ⟨hOpen, hAwaits, hStart⟩ := hw
    exact ⟨w, hExec, fun h => hStart (h.waits hOpen _ _ hAwaits).starting⟩
  · have hRun : ((system 1 0).exec Unheld (start 1 0 {}) childDies).map (fun w =>
        (w.machine.result.isNone, w.machine.awaits, w.machine.sv.registered 2)) =
        some (true, [⟨2, 1⟩], false) := by decide +kernel
    obtain ⟨w, hExec, hw⟩ := Option.map_eq_some_iff.mp hRun
    simp only [Prod.mk.injEq, Option.isNone_iff_eq_none] at hw
    obtain ⟨hOpen, hAwaits, hKnown⟩ := hw
    refine ⟨w, hExec, fun h => ?_⟩
    rw [(h.waits hOpen _ _ hAwaits).registered] at hKnown
    cases hKnown

end World

end Dtrun
