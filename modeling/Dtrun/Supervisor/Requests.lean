import Dtrun.Supervisor.Awaiting
import Dtrun.Supervisor.Granted
import Dtrun.Supervisor.Idling
import Dtrun.Supervisor.OnePlace

/-! # Requests go to stopped tasks

The kernel refuses a ptrace request about a task that is not in a stop, and a refused request ends
the supervision. As long as no stopped task is killed, the supervisor makes none: what the kernel
would answer about a task that runs changes nothing.
-/
namespace Dtrun
set_option autoImplicit false
open FiniteMap StateExcept Transition Supervisor

/-! ## Answers that agree about some tasks -/

/-- The two kernels answer alike about task `p`. -/
structure Answers.AgreeOn (k k' : Answers) (p : Pid) : Prop where
  syscallInfo : k.syscallInfo p = k'.syscallInfo p
  getevent : k.getevent p = k'.getevent p
  getregs : k.getregs p = k'.getregs p
  setregs : k.setregs p = k'.setregs p
  syscall : k.syscall p = k'.syscall p
  readMem : k.readMem p = k'.readMem p
  writeMem : k.writeMem p = k'.writeMem p

section Agreement

variable {k k' : Answers} {s : Supervisor} {p : Pid} {status : WaitStatus} {awaits : List Await}

section OneTask

variable (h : k.AgreeOn k' p)
include h

theorem ptraceSyscall_agree (sig : Option Signal) :
    ptraceSyscall k p sig = ptraceSyscall k' p sig := by
  rw [ptraceSyscall, ptraceSyscall, h.syscall]

theorem resumeThread_agree : resumeThread k p = resumeThread k' p := by
  simp only [resumeThread, ptraceSyscall_agree h]

theorem resumeCurrent_agree : resumeCurrent k p = resumeCurrent k' p := by
  simp only [resumeCurrent, resumeThread_agree h]

theorem resumeTask_agree : resumeTask k p = resumeTask k' p := by
  simp only [resumeTask, resumeCurrent_agree h, resumeThread_agree h]

theorem release_agree : release k p = release k' p := by
  simp only [release, resumeThread_agree h]

theorem skipSyscall_agree (syscall : Int) (retval : U64) :
    skipSyscall k p syscall retval = skipSyscall k' p syscall retval := by
  simp only [skipSyscall, ptraceSetregs, h.getregs, h.setregs]

theorem writeProcMem_agree (addr : U64) (data : List Byte) :
    writeProcMem k p addr data = writeProcMem k' p addr data := by
  rw [writeProcMem, writeProcMem, h.writeMem]

theorem readU32_agree (addr : U64) : readU32 k p addr = readU32 k' p addr := by
  rw [readU32, readU32, h.readMem]

theorem interceptGetrandom_agree (regs : Regs) :
    interceptGetrandom k p regs = interceptGetrandom k' p regs := by
  simp only [interceptGetrandom, writeProcMem_agree h, skipSyscall_agree h]

theorem interceptClockGettime_agree (regs : Regs) :
    interceptClockGettime k p regs = interceptClockGettime k' p regs := by
  simp only [interceptClockGettime, writeProcMem_agree h, skipSyscall_agree h]

theorem interceptGettimeofday_agree (regs : Regs) :
    interceptGettimeofday k p regs = interceptGettimeofday k' p regs := by
  simp only [interceptGettimeofday, writeProcMem_agree h, skipSyscall_agree h]

theorem interceptFutex_agree (regs : Regs) :
    interceptFutex k p regs = interceptFutex k' p regs := by
  simp only [interceptFutex, readU32_agree h, skipSyscall_agree h]

theorem stashClone_agree (nr : Int) (regs : Regs) :
    stashClone k p nr regs = stashClone k' p nr regs := by
  simp only [stashClone, cloneArgs, h.readMem]

theorem onSyscallEntry_agree : onSyscallEntry k p = onSyscallEntry k' p := by
  simp only [onSyscallEntry, h.getregs, interceptGetrandom_agree h, interceptClockGettime_agree h,
    interceptGettimeofday_agree h, interceptFutex_agree h, stashClone_agree h]

theorem onSyscallExit_agree : onSyscallExit k p = onSyscallExit k' p := by
  simp only [onSyscallExit, ptraceSetregs, h.getregs, h.setregs]

theorem dispatchStopped_agree (sig : Signal) :
    dispatchStopped k p sig = dispatchStopped k' p sig := by
  simp only [dispatchStopped, resumeThread_agree h, release_agree h, ptraceSyscall_agree h]

end OneTask

/-- The search for the next thread asks about the queue only. -/
theorem scheduleLoop_agree {queue : List Pid} (hQueue : ∀ q ∈ queue, k.AgreeOn k' q) :
    scheduleLoop k queue = scheduleLoop k' queue := by
  induction queue with
  | nil => rfl
  | cons tid rest ih =>
    have hRest := ih fun q hq => hQueue q (List.mem_cons_of_mem tid hq)
    have hRun (thread : Thread) : runThread k tid thread = runThread k' tid thread := by
      simp only [runThread, resumeThread_agree (hQueue tid List.mem_cons_self)]
    simp only [scheduleLoop, hRest, hRun]

theorem scheduleNext_agree (hQueue : ∀ q ∈ s.runnable, k.AgreeOn k' q) :
    scheduleNext k s = scheduleNext k' s := by
  rw [scheduleNext, scheduleNext, bind_of_ok (get_apply s), bind_of_ok (get_apply s),
    scheduleLoop_agree hQueue]

theorem runTail_agree (hQueue : ∀ q ∈ s.runnable, k.AgreeOn k' q) : runTail k s = runTail k' s := by
  rw [runTail, runTail, bind_of_ok (get_apply s), bind_of_ok (get_apply s)]
  split
  · exact scheduleNext_agree hQueue
  · rfl

theorem yieldCurrent_agree (h : k.AgreeOn k' p) (hQueue : ∀ q ∈ s.runnable, k.AgreeOn k' q) :
    yieldCurrent k p s = yieldCurrent k' p s := by
  rw [yieldCurrent, yieldCurrent, bind_of_ok (modify_apply _ s), bind_of_ok (modify_apply _ s)]
  refine scheduleNext_agree fun q hq => ?_
  split at hq
  · rcases List.mem_append.mp hq with hOld | hNew
    · exact hQueue q hOld
    · rw [List.mem_singleton.mp hNew]
      exact h
  · exact hQueue q hq

theorem dispatchSyscall_agree (h : k.AgreeOn k' p) (hQueue : ∀ q ∈ s.runnable, k.AgreeOn k' q) :
    dispatchSyscall k p s = dispatchSyscall k' p s := by
  rw [dispatchSyscall, dispatchSyscall, h.syscallInfo, resumeThread_agree h, resumeCurrent_agree h,
    onSyscallEntry_agree h, onSyscallExit_agree h]
  refine bind_congr_ok rfl fun op t hOp => ?_
  obtain ⟨_, rfl⟩ := ptraceResult_ok.mp hOp
  rw [bind_of_ok (get_apply s), bind_of_ok (get_apply s)]
  split
  · rfl
  · cases op with
    | exit =>
      refine bind_congr_ok rfl fun _ t hExit => yieldCurrent_agree h ?_
      rw [(onSyscallExit_quiet hExit).runnable]
      exact hQueue
    | _ => rfl

theorem registerThread_agree {c : Pid} {info : CloneInfo}
    (hSeen : c ∈ s.stoppedPending → k.AgreeOn k' c) :
    registerThread k c info s = registerThread k' c info s := by
  rw [registerThread, registerThread, bind_of_ok (get_apply s), bind_of_ok (get_apply s)]
  split
  · rfl
  · by_cases hc : c ∈ s.stoppedPending
    · rw [release_agree (hSeen hc)]
    · simp only [if_neg hc]

theorem dispatchClone_agree (h : k.AgreeOn k' p)
    (hSeen : ∀ q ∈ s.stoppedPending, k.AgreeOn k' q) :
    dispatchClone k p s = dispatchClone k' p s := by
  rw [dispatchClone, dispatchClone, h.getevent, resumeTask_agree h]
  refine bind_congr_ok rfl fun c t hChild => ?_
  obtain ⟨_, rfl⟩ := ptraceResult_ok.mp hChild
  refine bind_congr_ok rfl fun _ t hGet => ?_
  cases hGet
  refine bind_congr_ok rfl fun _ t hSet => ?_
  cases hSet
  exact bind_congr_ok (registerThread_agree (hSeen c)) fun _ _ _ => rfl

variable (hQueued : s.Queued) (hHeld : ∀ q, s.Holds q → k.AgreeOn k' q)
include hQueued hHeld

theorem dispatchExit_agree : dispatchExit k p s = dispatchExit k' p s := by
  rw [dispatchExit, dispatchExit, bind_of_ok (get_apply s), bind_of_ok (get_apply s)]
  refine bind_congr_ok rfl fun _ t hSet => ?_
  cases hSet
  refine bind_congr_ok rfl fun _ t hGet => ?_
  cases hGet
  split
  · refine bind_congr_ok rfl fun _ t hNone => ?_
    cases hNone
    exact scheduleNext_agree fun q hq => hHeld q (Holds.onThreadExit hQueued (.inl hq)).1
  · rfl

theorem dispatch_agree (hStop : ∀ q, status.stop = some q → k.AgreeOn k' q) :
    dispatch k status s = dispatch k' status s := by
  have hClone {q : Pid} (h : k.AgreeOn k' q) : dispatchClone k q s = dispatchClone k' q s :=
    dispatchClone_agree h fun c hc => hHeld c (.inr (.inr hc))
  cases status with
  | ptraceSyscall q =>
    have hSame : dispatchSyscall k q s = dispatchSyscall k' q s :=
      dispatchSyscall_agree (hStop q rfl) fun c hc => hHeld c (.inl hc)
    exact bind_congr_ok hSame fun _ _ _ => rfl
  | ptraceEvent q sig event =>
    have h := hStop q rfl
    have hResume : (do resumeTask k q; pure Flow.next : SupM Flow) s =
        (do resumeTask k' q; pure Flow.next : SupM Flow) s := by rw [resumeTask_agree h]
    have hDying : (do resumeThread k q; pure Flow.next : SupM Flow) s =
        (do resumeThread k' q; pure Flow.next : SupM Flow) s := by rw [resumeThread_agree h]
    cases event with
    | clone => exact hClone h
    | fork => exact hClone h
    | vfork => exact hClone h
    | exit => exact hDying
    | exec => exact hResume
    | vforkDone => exact hResume
    | seccomp => exact hResume
    | stop => exact hResume
  | stopped q sig => rw [dispatch, dispatch, dispatchStopped_agree (hStop q rfl)]
  | exited q code =>
    rw [dispatch, dispatch, bind_of_ok (get_apply s), bind_of_ok (get_apply s)]
    split
    · rfl
    · exact bind_congr_ok (dispatchExit_agree hQueued hHeld) fun _ _ _ => rfl
  | signaled q sig core =>
    rw [dispatch, dispatch, bind_of_ok (get_apply s), bind_of_ok (get_apply s)]
    split
    · rfl
    · exact bind_congr_ok (dispatchExit_agree hQueued hHeld) fun _ _ _ => rfl
  | continued q => rfl
  | stillAlive => rfl

/-- Where a call of `await_attach` returns, its parent is asked about too. -/
theorem pass_agree (hStop : ∀ q, status.stop = some q → k.AgreeOn k' q)
    (hParents : ∀ w ∈ awaits, k.AgreeOn k' w.parent) :
    pass k awaits status s = pass k' awaits status s := by
  have hDispatch := dispatch_agree hQueued hHeld hStop
  cases awaits with
  | nil =>
    refine bind_congr_ok hDispatch fun flow v hRun => ?_
    cases flow with
    | next =>
      have hTail : runTail k v = runTail k' v := runTail_agree fun q hq => by
        rcases (dispatch_ok hRun).holds hQueued (by simp) (.inl hq) with ⟨hOld, _⟩ | hNow
        · exact hHeld q hOld
        · exact hStop q hNow
      exact bind_congr_ok hTail fun _ _ _ => rfl
    | exit code => rfl
    | await w => rfl
  | cons w outer =>
    simp only [pass, awaitPass]
    split
    · rename_i hEq
      have hChild := hStop w.child (by rw [hEq]; rfl)
      rw [release_agree hChild, resumeTask_agree (hParents w List.mem_cons_self)]
      refine bind_congr_ok rfl fun _ t hErase => ?_
      cases hErase
      refine bind_congr_ok rfl fun _ v hRelease => bind_congr_ok rfl fun _ v' hResume => ?_
      split
      · have hTail : runTail k v' = runTail k' v' := runTail_agree fun q hq => by
          rcases release_holds hRelease (resumeTask_holds hResume (.inl hq)) with hOld | rfl
          · exact hHeld q hOld
          · exact hChild
        exact bind_congr_ok hTail fun _ _ _ => rfl
      · rfl
    · exact bind_congr_ok hDispatch fun _ _ _ => rfl

end Agreement

/-! ## Runs in which nobody is killed -/

namespace Tracees

variable {t : Tracees} {r : Report} {status : WaitStatus} {q : Pid}

/-- A task comes to its exit stop from where it runs, and dies there or after that stop. -/
def Spares (t : Tracees) (r : Report) : Prop :=
  (∀ p sig, r.status = .ok (.ptraceEvent p sig .exit) → t.phase p = some .released) ∧
  ∀ p, r.death = some p → t.phase p = some .released ∨ t.phase p = some .exiting

/-- The task is in a stop once `r` has been reported. -/
def StoppedBy (t : Tracees) (r : Report) (p : Pid) : Prop :=
  (∃ status, r.status = .ok status ∧ status.stop = some p) ∨ (t.observe r).phase p = some .held

theorem Spares.death (h : t.Spares r) (hStatus : r.status = .ok status)
    (hDeath : status.death = some q) : t.phase q = some .released ∨ t.phase q = some .exiting :=
  h.2 q (by rw [Report.death, hStatus]; exact hDeath)

theorem held_observe (hSpares : t.Spares r) (hStatus : r.status = .ok status)
    (hAllows : t.allows r = true) (hHeld : t.phase q = some .held) :
    (t.observe r).phase q = some .held := by
  rcases phase_observe (t := t) hStatus q with hSame | ⟨hStop | hDeath, _⟩
  · exact hSame.trans hHeld
  · rcases allows_stop_phase hStatus hStop hAllows with ⟨sig, rfl⟩ | hRan | hBorn
    · cases hHeld.symm.trans (hSpares.1 q sig hStatus)
    · cases hHeld.symm.trans hRan
    · cases hHeld.symm.trans hBorn
  · rcases hSpares.death hStatus hDeath with hRan | hGone
    · cases hHeld.symm.trans hRan
    · cases hHeld.symm.trans hGone

/-- Only a resume ends a stop. -/
theorem held_after {s : Supervisor} (hHeld : t.phase q = some .held)
    (hNot : (t.after s).phase q ≠ some .released) : (t.after s).phase q = some .held := by
  have hLives : (t.after s).phase q ≠ none := by
    rw [ne_eq, phase_after_eq_none, hHeld]
    exact Option.some_ne_none _
  have hDying : ¬ (t.after s).Dying q := by
    rw [dying_after, Dying, hHeld]
    simp
  have hBorn : (t.after s).phase q ≠ some .newborn := by
    rw [ne_eq, newborn_after, hHeld]
    simp
  cases hPhase : (t.after s).phase q with
  | none => exact absurd hPhase hLives
  | some phase =>
    cases phase with
    | held => rfl
    | newborn => exact absurd hPhase hBorn
    | released => exact absurd hPhase hNot
    | exitStop => exact absurd (.inl hPhase) hDying
    | exiting => exact absurd (.inr hPhase) hDying

end Tracees

/-- The tasks that wait to run and the parents of the open calls are in their stops. -/
structure Unharmed (s : Supervisor) (awaits : List Await) (t : Tracees) : Prop where
  held : ∀ q, s.Holds q → t.phase q = some .held
  parents : ∀ w ∈ awaits, t.phase w.parent = some .held

section Steps

variable {k : Answers} {s s' : Supervisor} {t : Tracees} {q : Pid} {r : Report}
  {status : WaitStatus} {awaits awaits' : List Await}

theorem Placed.holds_still (h : Placed s awaits t) (hq : s.Holds q) : t.Still q := by
  rcases hq with hq | hq | hq
  · exact (h.runnable q hq).2.2.2.2
  · exact h.parked.still q hq
  · exact (h.early q hq).2

theorem Passed.holds_dying {sig : Signal} (hPassed : Passed k s awaits (.ptraceEvent q sig .exit)
    (.wait awaits') s') {p : Pid} (h : s'.Holds p) : s.Holds p := by
  have dispatched {flow : Flow} {v : Supervisor}
      (hDispatched : Dispatched k s (.ptraceEvent q sig .exit) flow v) (hv : v.Holds p) :
      s.Holds p := by
    cases hDispatched with
    | clone hEvent => cases hEvent
    | dying => exact hv
    | event _ hExit => exact absurd rfl hExit
    | finished hDeath => cases hDeath
    | died hDeath => cases hDeath
    | idle => exact hv
  cases hPassed with
  | next hDispatched hTail => exact dispatched hDispatched (hTail.holds h)
  | again _ hDispatched => exact dispatched hDispatched h
  | await hDispatched => exact dispatched hDispatched h

theorem Unharmed.not_dying (h : Unharmed s awaits t) (hQueued : s.Queued)
    (hSpares : t.Spares r) (hStatus : r.status = .ok status) (hAllows : t.allows r = true)
    (hPassed : Passed r.answers s awaits status (.wait awaits') s') (hq : s'.Holds q) :
    ¬ (t.observe r).Dying q := by
  intro hDying
  rcases Tracees.dying_of_observe hDying with hOld | ⟨sig, hExit⟩
  · rcases hPassed.holds hQueued hq with ⟨hHeld, _⟩ | hStop
    · rw [Tracees.Dying, h.held q hHeld] at hOld
      simp at hOld
    · rcases Tracees.allows_stop_phase hStatus hStop hAllows with ⟨sig, rfl⟩ | hRan | hBorn
      · rw [Tracees.Dying, hSpares.1 q sig hStatus] at hOld
        simp at hOld
      · rw [Tracees.Dying, hRan] at hOld
        simp at hOld
      · rw [Tracees.Dying, hBorn] at hOld
        simp at hOld
  · cases hStatus.symm.trans hExit
    cases (h.held q (hPassed.holds_dying hq)).symm.trans (hSpares.1 q sig hExit)

theorem Unharmed.passed (h : Unharmed s awaits t) (hQueued : s.Queued) (hSpares : t.Spares r)
    (hStatus : r.status = .ok status) (hAllows : t.allows r = true)
    (hPassed : Passed r.answers s awaits status (.wait awaits') s')
    (hPlaced : Placed s' awaits' ((t.observe r).after s'))
    (hAwaiting : Awaiting s' awaits' ((t.observe r).after s')) :
    Unharmed s' awaits' ((t.observe r).after s') := by
  refine ⟨fun q hq => ?_, fun w hw => ?_⟩
  · have hNot := h.not_dying hQueued hSpares hStatus hAllows hPassed hq
    rcases hPlaced.holds_still hq with hHeld | hStop | hGone
    · exact hHeld
    · exact absurd (Tracees.dying_after.mp (.inl hStop)) hNot
    · exact absurd (Tracees.dying_after.mp (.inr hGone)) hNot
  · refine Tracees.held_after ?_ (hAwaiting.still w hw).1
    have old (hw : w ∈ awaits) : (t.observe r).phase w.parent = some .held :=
      Tracees.held_observe hSpares hStatus hAllows (h.parents w hw)
    cases hPassed with
    | next => cases hw
    | again => exact old hw
    | await hDispatched =>
      rcases List.mem_cons.mp hw with rfl | hw
      · cases hDispatched with
        | @clone p _ sig event _ _ _ hEvent _ _ hFlow =>
          rcases hFlow with ⟨_, ⟨⟩, _⟩ | ⟨_, hFlow, _⟩
          · have hExit : event ≠ .exit := by
              rintro rfl
              cases hEvent
            have hRan := Tracees.allows_event hStatus hExit hAllows
            rw [Tracees.phase_observe_event hStatus hExit, Tracees.phase_setPhase, if_pos rfl, hRan]
            rfl
          · cases hFlow
      · exact old hw
    | attached => exact old (List.mem_cons_of_mem _ hw)

end Steps

namespace World

variable {pid : Pid} {seed : U64} {w : World} {r : Report}

/-- No task is killed in a stop. -/
def Spares (w : World) : Label → Prop
  | .report r => w.tracees.Spares r
  | _ => True

/-- No pid is given out while it is held, and no task is killed in a stop. -/
def Peaceful (w : World) (l : Label) : Prop := w.Unheld l ∧ w.Spares l

theorem unharmed (h : (system pid seed).Reach Peaceful w) (hOpen : w.machine.result = none) :
    Unharmed w.machine.sv w.machine.awaits w.tracees := by
  refine System.Reach.invariant (I := fun w => w.machine.result = none →
    Unharmed w.machine.sv w.machine.awaits w.tracees) ?_ ?_ h hOpen
  · rintro _ ⟨k, rfl⟩ hOpen
    have hReach : (system pid seed).Reach Unheld (start pid seed k) := .init ⟨k, rfl⟩
    have hPlaced := placed hReach hOpen
    refine ⟨fun q hq => ?_, fun w hw => ?_⟩
    · have hNot : ¬ (alone pid).Dying q := by
        rw [Tracees.Dying, Tracees.phase, Tracees.task, alone, Map.get_singleton]
        split
        · simp
        · simp
      rcases hPlaced.holds_still hq with hHeld | hStop | hGone
      · exact hHeld
      · exact absurd (Tracees.dying_after.mp (.inl hStop)) hNot
      · exact absurd (Tracees.dying_after.mp (.inr hGone)) hNot
    · change w ∈ (Machine.start pid seed k).awaits at hw
      rw [(Machine.start_wait hOpen).1] at hw
      cases hw
  · intro w l w' hReach hOld hOk hStep hOpen
    have hReach' := hReach.step l hOk hStep
    have hPeace : ∀ w l, Peaceful w l → Unheld w l := fun _ _ hOk => hOk.1
    cases l with
    | spawn p c thread vm =>
      have hMachine := spawn_machine hStep
      rw [hMachine] at hOpen ⊢
      obtain ⟨hHeld, hParents⟩ := hOld hOpen
      obtain ⟨_, _, hNew, _⟩ := spawn_eq_some hStep
      have kept {q : Pid} (hq : w.tracees.phase q = some .held) :
          w'.tracees.phase q = some .held := by
        rw [spawn_phase hStep, if_neg]
        · exact hq
        · rintro rfl
          simp [Tracees.phase, hNew] at hq
      exact ⟨fun q hq => kept (hHeld q hq), fun w hw => kept (hParents w hw)⟩
    | exec p =>
      have hMachine := exec_machine hStep
      rw [hMachine] at hOpen ⊢
      obtain ⟨hHeld, hParents⟩ := hOld hOpen
      exact ⟨fun q hq => (exec_phase hStep q).trans (hHeld q hq),
        fun w hw => (exec_phase hStep w.parent).trans (hParents w hw)⟩
    | report r =>
      obtain ⟨status, hRunning, hAllows, hStatus, hTracees, hPassed⟩ := observe_wait hStep hOpen
      obtain ⟨hHeld, hParents⟩ := hOld hRunning
      have hRead : Unharmed { w.machine.sv with effects := [] } w.machine.awaits w.tracees :=
        ⟨hHeld, hParents⟩
      have hQueued : Queued { w.machine.sv with effects := [] } :=
        (parked hReach hRunning).queued.congr rfl rfl
      have hPlaced := placed (hReach'.mono hPeace) hOpen
      have hAwaiting := awaiting (hReach'.mono hPeace) hOpen
      rw [hTracees] at hPlaced hAwaiting ⊢
      exact hRead.passed hQueued hOk.2 hStatus hAllows hPassed hPlaced hAwaiting

theorem step_agree {k : Answers} (h : (system pid seed).Reach Peaceful w)
    (hOpen : w.machine.result = none) (hAllows : w.tracees.allows r = true)
    (hSpares : w.tracees.Spares r)
    (hAgree : ∀ q, w.tracees.StoppedBy r q → r.answers.AgreeOn k q) :
    w.machine.step r = w.machine.step ⟨r.status, k⟩ := by
  obtain ⟨hHeld, hParents⟩ := unharmed h hOpen
  cases hStatus : r.status with
  | error e => simp only [Machine.step, hOpen, handle, hStatus]
  | ok status =>
    have held {q : Pid} (hq : w.tracees.phase q = some .held) : r.answers.AgreeOn k q :=
      hAgree q (.inr (Tracees.held_observe hSpares hStatus hAllows hq))
    have hQueued : Queued { w.machine.sv with effects := [] } :=
      (parked h hOpen).queued.congr rfl rfl
    rw [Machine.step_settle hOpen hStatus, Machine.step_settle (r := ⟨.ok status, k⟩) hOpen rfl]
    exact congrArg (Machine.settle _) (pass_agree hQueued (fun q hq => held (hHeld q hq))
      (fun q hq => hAgree q (.inl ⟨status, hStatus, hq⟩)) fun w hw => held (hParents w hw))

/-- As long as no stopped task is killed, a status leads to the same whatever the kernel would answer
about the tasks that are not in a stop. So where it grants the requests about the others, the
supervision fails in a deadlock at most. -/
theorem asks_stopped (h : (system pid seed).Reach Peaceful w) (hOpen : w.machine.result = none)
    (hAllows : w.tracees.allows r = true) (hSpares : w.tracees.Spares r) (k : Answers)
    (hAgree : ∀ q, w.tracees.StoppedBy r q → r.answers.AgreeOn k q) :
    w.machine.step r = w.machine.step ⟨r.status, k⟩ ∧
      (k.Grants → ∀ status e, r.status = .ok status →
        (w.machine.step r).result = some (.error e) → e = .deadlock) := by
  have hSame := step_agree h hOpen hAllows hSpares hAgree
  refine ⟨hSame, fun hGrants status e hStatus hFails => ?_⟩
  have hErrors : FailsWith (fun e => e = .deadlock) (pass k w.machine.awaits status) := by
    refine pass_fails (P := fun e => e = .deadlock) (hGrants.errors _) rfl
      (fun p sig event n hEvent hCreates hRefused => ?_) _
    subst hEvent
    obtain ⟨c, hChild⟩ := Tracees.allows_getevent hStatus hCreates hAllows
    rw [(hAgree p (.inl ⟨_, hStatus, rfl⟩)).getevent, hRefused] at hChild
    cases hChild
  rw [hSame, Machine.step_settle (r := ⟨r.status, k⟩) hOpen hStatus] at hFails
  cases hPass : pass k w.machine.awaits status { w.machine.sv with effects := [] } with
  | ok turn v =>
    rw [hPass] at hFails
    cases turn with
    | wait awaits => cases hFails
    | done code => cases hFails
  | error e' v =>
    rw [hPass] at hFails
    cases hFails
    exact hErrors _ _ _ hPass

def granting : Answers where
  syscallInfo _ := .ok .entry
  getregs _ := .ok { origRax := 202, rdi := 4096 }
  readMem _ _ n := .ok (List.replicate n 0)

theorem granting_grants : granting.Grants where
  syscallInfo _ := ⟨_, rfl⟩
  getregs _ := ⟨_, rfl⟩
  setregs _ := rfl
  syscall _ := rfl
  writeMem _ _ _ := ⟨_, rfl⟩

/-- What is asked about task 3 is refused. -/
def refusesThird : Answers where
  syscallInfo p := if p = 3 then .error ESRCH else granting.syscallInfo p
  getregs p := if p = 3 then .error ESRCH else granting.getregs p
  setregs p := if p = 3 then .error ESRCH else granting.setregs p
  syscall p := if p = 3 then .error ESRCH else granting.syscall p
  readMem p addr n := if p = 3 then .error ESRCH else granting.readMem p addr n
  writeMem p addr data := if p = 3 then .error ESRCH else granting.writeMem p addr data

theorem refusesThird_agree {q : Pid} (h : q ≠ 3) : refusesThird.AgreeOn granting q := by
  refine ⟨?_, rfl, ?_, ?_, ?_, ?_, ?_⟩ <;> simp [refusesThird, h]

def asksToWait : Report := ⟨.ok (.ptraceSyscall 1), refusesThird⟩

theorem newThread_spares : ∀ l ∈ newThread ++ threadWaits, ∀ w : World, w.Spares l := by
  intro l hl w
  simp only [newThread, threadWaits, List.cons_append, List.nil_append, List.mem_cons,
    List.not_mem_nil, or_false] at hl
  rcases hl with rfl | rfl | rfl | rfl | rfl | rfl
  · exact ⟨by rintro _ _ ⟨⟩, by rintro _ ⟨⟩⟩
  · trivial
  · exact ⟨by rintro _ _ ⟨⟩, by rintro _ ⟨⟩⟩
  · exact ⟨by rintro _ _ ⟨⟩, by rintro _ ⟨⟩⟩
  · exact ⟨by rintro _ _ ⟨⟩, by rintro _ ⟨⟩⟩
  · exact ⟨by rintro _ _ ⟨⟩, by rintro _ ⟨⟩⟩

theorem initForks_spares : ∀ l ∈ initForks, ∀ w : World, w.Spares l := by
  intro l hl w
  simp only [initForks, List.mem_cons, List.not_mem_nil, or_false] at hl
  rcases hl with rfl | rfl | rfl
  · trivial
  · exact ⟨by rintro _ _ ⟨⟩, by rintro _ ⟨⟩⟩
  · exact ⟨by rintro _ _ ⟨⟩, by rintro _ ⟨⟩⟩

/-- Process 3 runs while the init comes to its stop; without the process the stop is a deadlock. -/
theorem asks_stopped_two_threads :
    (∃ w, (system 1 0).exec Unheld (start 1 0 {}) (initForks ++ (newThread ++ threadWaits)) =
        some w ∧ w.tracees.phase 3 = some .released ∧
      w.machine.step asksToWait = w.machine.step ⟨asksToWait.status, granting⟩) ∧
    ∃ w e, (system 1 0).exec Unheld (start 1 0 {}) (newThread ++ threadWaits) = some w ∧
      (w.machine.step asksToWait).result = some (.error e) ∧ e = .deadlock := by
  have hInit : (system 1 0).Reach Peaceful (start 1 0 {}) := .init ⟨{}, rfl⟩
  have hSpares (t : Tracees) : t.Spares asksToWait := ⟨by rintro _ _ ⟨⟩, by rintro _ ⟨⟩⟩
  have hAgree {t : Tracees} (hThird : (t.observe asksToWait).phase 3 ≠ some .held) (q : Pid)
      (hq : t.StoppedBy asksToWait q) : refusesThird.AgreeOn granting q := by
    refine refusesThird_agree ?_
    rintro rfl
    rcases hq with ⟨_, ⟨⟩, hStop⟩ | hHeld
    · cases hStop
    · exact hThird hHeld
  constructor
  · have hRun : ((system 1 0).exec Unheld (start 1 0 {})
        (initForks ++ (newThread ++ threadWaits))).map (fun w =>
          (w.machine.result.isNone, w.tracees.allows asksToWait, w.tracees.phase 3,
            (w.tracees.observe asksToWait).phase 3)) =
        some (true, true, some .released, some .released) := by decide +kernel
    obtain ⟨w, hExec, hw⟩ := Option.map_eq_some_iff.mp hRun
    simp only [Prod.mk.injEq, Option.isNone_iff_eq_none] at hw
    obtain ⟨hOpen, hAllows, hRuns, hThird⟩ := hw
    have hAll : ∀ l ∈ initForks ++ (newThread ++ threadWaits), ∀ w : World, w.Spares l :=
      fun l hl => (List.mem_append.mp hl).elim (initForks_spares l) (newThread_spares l)
    have hPeace : (system 1 0).Run Peaceful (start 1 0 {}) _ w :=
      (System.run_of_exec_mem hExec hAll).mono fun w _ hOk => ⟨hOk.1, hOk.2 w⟩
    exact ⟨w, hExec, hRuns, (asks_stopped (hInit.run hPeace) hOpen hAllows (hSpares _) granting
      (hAgree (by rw [hThird]; simp))).1⟩
  · have hRun : ((system 1 0).exec Unheld (start 1 0 {}) (newThread ++ threadWaits)).map (fun w =>
        (w.machine.result.isNone, w.tracees.allows asksToWait,
          (w.tracees.observe asksToWait).phase 3,
          (w.machine.step asksToWait).result.any fun result => result.toOption.isNone)) =
        some (true, true, none, true) := by decide +kernel
    obtain ⟨w, hExec, hw⟩ := Option.map_eq_some_iff.mp hRun
    simp only [Prod.mk.injEq, Option.isNone_iff_eq_none] at hw
    obtain ⟨hOpen, hAllows, hThird, hFails⟩ := hw
    have hPeace : (system 1 0).Run Peaceful (start 1 0 {}) _ w :=
      (System.run_of_exec_mem hExec newThread_spares).mono fun w _ hOk => ⟨hOk.1, hOk.2 w⟩
    have hDeadlock := (asks_stopped (hInit.run hPeace) hOpen hAllows (hSpares _) granting
      (hAgree (by rw [hThird]; simp))).2 granting_grants
    cases hResult : (w.machine.step asksToWait).result with
    | none => simp [hResult] at hFails
    | some result =>
      cases result with
      | ok code => simp [hResult, Except.toOption] at hFails
      | error e => exact ⟨w, e, hExec, hResult, hDeadlock _ e rfl hResult⟩

end World

end Dtrun
