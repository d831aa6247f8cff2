import Dtrun.Supervisor.Spaces

/-! # Which comes first, the attach stop or the clone event

A new thread stops at its beginning while its creator stops in the clone event, and `wait` may
report either first. If the attach stop is first, it is noted and the clone event puts the thread
into the queue; otherwise the clone event opens a call of `await_attach`, which does so. Both ways
lead to the same machine.
-/
namespace Dtrun
set_option autoImplicit false
open FiniteMap StateExcept Transition Supervisor

variable {k : Answers} {s : Supervisor} {p d : Pid}

/-- The attach stop of `d` has come before the event that announces `d`. -/
def Supervisor.seen (s : Supervisor) (d : Pid) : Supervisor :=
  { s with stoppedPending := insert d s.stoppedPending }

/-- What a clone event enters for a thread that is not known. -/
def Supervisor.entered (s : Supervisor) (p d : Pid) : Supervisor :=
  { s with
    clonePending := s.clonePending.erase p
    vtidNext := s.vtidNext + 1
    threads := s.threads.insert d
      ⟨s.vtidNext, ((s.clonePending.get p).getD {}).childTid, ((s.clonePending.get p).getD {}).flags, true⟩ }.traceJson
      "thread_create" [("tid", .num s.vtidNext), ("scheduled", .bool true)]

theorem release_scheduled (hScheduled : s.isScheduled p = true) :
    release k p s = .ok () (s.enqueue p) := by
  rw [release, bind_of_ok (get_apply s), if_pos hScheduled]
  rfl

theorem dispatchClone_expected (hChild : k.getevent p = .ok d) (hFresh : s.registered d = false)
    (hSeen : d ∉ s.stoppedPending) (hThread : s.notesThread p) :
    dispatchClone k p s = .ok (.await ⟨d, p⟩)
      { s.entered p d with pendingStart := insert d s.pendingStart } := by
  have hNot : ({ s with
      clonePending := s.clonePending.erase p } : Supervisor).registered d = false := hFresh
  have hFlag : ((s.clonePending.get p).getD {}).flags &&& CLONE_THREAD ≠ 0 := hThread
  simp only [dispatchClone, registerThread, bind_apply, get_apply, set_apply, modify_apply,
    hChild, ptraceResult, pure_apply, hNot, Bool.false_eq_true, if_false, hSeen]
  simp only [Supervisor.traceJson, Finset.mem_insert_self, if_true, pure_apply, entered, hFlag, ne_eq,
    not_false_eq_true, decide_true]

theorem dispatchClone_seen (hChild : k.getevent p = .ok d) (hFresh : s.registered d = false)
    (hStart : d ∉ s.pendingStart) (hSeen : d ∉ s.stoppedPending) (hThread : s.notesThread p) :
    dispatchClone k p (s.seen d) =
      (do resumeTask k p; pure Flow.next : SupM Flow) ((s.entered p d).enqueue d) := by
  have hNot : ({ s.seen d with
      clonePending := s.clonePending.erase p } : Supervisor).registered d = false := hFresh
  have hFlag : ((s.clonePending.get p).getD {}).flags &&& CLONE_THREAD ≠ 0 := hThread
  have hMem : d ∈ (s.seen d).stoppedPending := Finset.mem_insert_self _ _
  have hErase : (s.seen d).stoppedPending.erase d = s.stoppedPending := Finset.erase_insert hSeen
  have hStash : (s.seen d).clonePending = s.clonePending := rfl
  have hStart' : d ∉ (s.seen d).pendingStart := hStart
  have hRelease (v : Supervisor) (hv : v.isScheduled d = true) := release_scheduled (k := k) hv
  simp only [dispatchClone, registerThread, bind_apply, get_apply, set_apply, modify_apply,
    hChild, ptraceResult, pure_apply, hNot, hStash, Bool.false_eq_true, if_false, hMem, if_true]
  rw [hRelease _ (by simpa [isScheduled] using hFlag)]
  simp only [Supervisor.traceJson, enqueue, if_neg hStart', entered, hFlag, ne_eq,
    not_false_eq_true, decide_true, hErase]
  rfl

/-- The end of a clone event whose child is in place. -/
def cloned (k : Answers) (p : Pid) : SupM Turn := do
  resumeTask k p
  runTail k
  pure (.wait [])

theorem pass_attached (hScheduled : s.isScheduled d = true) (hStart : d ∉ s.pendingStart) :
    pass k [⟨d, p⟩] (.stopped d .SIGSTOP) { s with pendingStart := insert d s.pendingStart } =
      cloned k p (s.enqueue d) := by
  have hErase : ({ s with pendingStart := (insert d s.pendingStart).erase d } : Supervisor) = s := by
    rw [Finset.erase_insert hStart]
  simp only [pass, awaitPass, if_true]
  rw [bind_of_ok (modify_apply _ _), hErase, bind_of_ok (release_scheduled hScheduled)]
  rfl

theorem pass_expected {sig : Signal} {event : Event} (hEvent : event.creates = true)
    (hChild : k.getevent p = .ok d) (hFresh : s.registered d = false)
    (hSeen : d ∉ s.stoppedPending) (hThread : s.notesThread p) :
    pass k [] (.ptraceEvent p sig event) s = .ok (.wait [⟨d, p⟩])
      { s.entered p d with pendingStart := insert d s.pendingStart } := by
  have hDispatch : dispatch k (.ptraceEvent p sig event) s = dispatchClone k p s := by
    cases event <;> first | rfl | cases hEvent
  have hClone := dispatchClone_expected hChild hFresh hSeen hThread
  exact bind_of_ok (hDispatch.trans hClone)

theorem pass_seen {sig : Signal} {event : Event} (hEvent : event.creates = true)
    (hChild : k.getevent p = .ok d) (hFresh : s.registered d = false) 
    (hStart : d ∉ s.pendingStart) (hSeen : d ∉ s.stoppedPending) (hThread : s.notesThread p) :
    pass k [] (.ptraceEvent p sig event) (s.seen d) = cloned k p ((s.entered p d).enqueue d) := by
  have hDispatch : dispatch k (.ptraceEvent p sig event) (s.seen d) =
      dispatchClone k p (s.seen d) := by
    cases event <;> first | rfl | cases hEvent
  have hClone := dispatchClone_seen (k := k) hChild hFresh hStart hSeen hThread
  rw [pass, runPass, cloned, bind_apply, hDispatch, hClone, bind_apply, bind_apply]
  cases resumeTask k p ((s.entered p d).enqueue d) with
  | ok a t => rfl
  | error e t => rfl

theorem pass_early (hCurrent : s.current = some p) (hne : d ≠ p) (hFresh : s.registered d = false)
    (hStart : d ∉ s.pendingStart) :
    pass k [] (.stopped d .SIGSTOP) s = .ok (.wait []) (s.seen d) := by
  have hOther : ¬ s.current = some d := by
    rw [hCurrent]
    exact fun hEq => hne (Option.some.inj hEq).symm
  have hStopped : dispatchStopped k d .SIGSTOP s = .ok () (s.seen d) := by
    rw [dispatchStopped, bind_of_ok (get_apply s), if_pos rfl, if_neg hOther, if_neg hStart,
      if_pos (by simp [hFresh])]
    rfl
  have hTail : runTail k (s.seen d) = .ok () (s.seen d) := by
    have hBusy : ¬ (s.seen d).current = none := by
      change ¬ s.current = none
      simp [hCurrent]
    rw [runTail, bind_of_ok (get_apply _), if_neg hBusy]
    rfl
  have hDispatch : dispatch k (.stopped d .SIGSTOP) s = .ok .next (s.seen d) := bind_of_ok hStopped
  exact (bind_of_ok hDispatch).trans (bind_of_ok hTail)

namespace Machine

def seen (m : Machine) (d : Pid) : Machine := { m with sv := { m.sv.seen d with effects := [] } }

/-- A thread whose attach stop comes first is in the same place as one whose attach stop is
awaited. -/
theorem seen_step {m : Machine} {r : Report} {sig : Signal} {event : Event}
    (hOpen : m.result = none) (hAwaits : m.awaits = [])
    (hStatus : r.status = .ok (.ptraceEvent p sig event)) (hEvent : event.creates = true)
    (hChild : r.answers.getevent p = .ok d) (hFresh : m.sv.registered d = false)
    (hStart : d ∉ m.sv.pendingStart) (hSeen : d ∉ m.sv.stoppedPending)
    (hThread : m.sv.notesThread p) :
    m.step r = ⟨{ ({ m.sv with effects := [] } : Supervisor).entered p d with
        pendingStart := insert d m.sv.pendingStart }, [⟨d, p⟩], none, m.log⟩ ∧
    (m.seen d).step r = (m.step r).step ⟨.ok (.stopped d .SIGSTOP), r.answers⟩ := by
  have hFirst : m.step r = ⟨{ ({ m.sv with effects := [] } : Supervisor).entered p d with
      pendingStart := insert d m.sv.pendingStart }, [⟨d, p⟩], none, m.log⟩ := by
    rw [step_settle hOpen hStatus, hAwaits, pass_expected (k := r.answers)
      (s := { m.sv with effects := [] }) hEvent hChild hFresh hSeen hThread]
    simp [settle, entered, Supervisor.traceJson]
  refine ⟨hFirst, ?_⟩
  have hOpen' : (m.seen d).result = none := hOpen
  have hAwaits' : (m.seen d).awaits = [] := hAwaits
  have hScheduled :
      (({ m.sv with effects := [] } : Supervisor).entered p d).isScheduled d = true := by
    simp [isScheduled, entered, Supervisor.traceJson]
  have hLeft := pass_attached (k := r.answers) (p := p) hScheduled hStart
  have hRight : pass r.answers [] (.ptraceEvent p sig event)
      (Supervisor.seen { m.sv with effects := [] } d) = _ :=
    pass_seen hEvent hChild hFresh hStart hSeen hThread
  rw [hFirst, step_settle hOpen' hStatus, hAwaits']
  exact congrArg (settle m.log) (hRight.trans hLeft.symm)

end Machine

end Dtrun
