import Dtrun.Supervisor.Specs

/-! # What one pass of the loops does

A pass reads one status. `Passed` lists all ways in which it succeeds, whichever loop was waiting;
an invariant of the supervisor is shown by going through that list once.
-/
namespace Dtrun
set_option autoImplicit false
open FiniteMap StateExcept

variable {k : Answers} {s t : Supervisor} {status : WaitStatus} {flow : Flow} {u : Unit}

/-- The call of `await_attach` that `dispatch` leaves open. -/
def Flow.opened : Flow → List Await
  | .await w => [w]
  | _ => []

/-- How `dispatch` succeeds. -/
inductive Dispatched (k : Answers) (s : Supervisor) : WaitStatus → Flow → Supervisor → Prop
  | syscall {p : Pid} {t : Supervisor} (h : SyscallHandled k p s t) :
      Dispatched k s (.ptraceSyscall p) .next t
  | clone {p child : Pid} {sig : Signal} {event : Event} {v t : Supervisor} {flow : Flow}
      (hEvent : event.creates = true) (hChild : k.getevent p = .ok child)
      (hRegister : Registered k child ((s.clonePending.get p).getD {})
        { s with clonePending := s.clonePending.erase p } v)
      (hFlow : (child ∈ v.pendingStart ∧ flow = .await ⟨child, p⟩ ∧ t = v) ∨
        (child ∉ v.pendingStart ∧ flow = .next ∧ resumeTask k p v = .ok () t)) :
      Dispatched k s (.ptraceEvent p sig event) flow t
  | dying {p : Pid} {sig : Signal} (hOk : k.syscall p = .ok ()) :
      Dispatched k s (.ptraceEvent p sig .exit) .next (s.resumed p)
  | event {p : Pid} {sig : Signal} {event : Event} {t : Supervisor}
      (hEvent : event.creates = false) (hExit : event ≠ .exit)
      (hResume : resumeTask k p s = .ok () t) : Dispatched k s (.ptraceEvent p sig event) .next t
  | stopped {p : Pid} {sig : Signal} {t : Supervisor} (h : StopHandled k p sig s t) :
      Dispatched k s (.stopped p sig) .next t
  | finished {status : WaitStatus} {t : Supervisor} (hDeath : status.death = some s.pid)
      (hQuiet : Quiet s t) : Dispatched k s status (.exit status.exitCode) t
  | died {status : WaitStatus} {p : Pid} {t : Supervisor} (hDeath : status.death = some p)
      (hOther : p ≠ s.pid) (hExit : dispatchExit k p s = .ok () t) : Dispatched k s status .next t
  | idle {status : WaitStatus} (hStatus : (∃ p, status = .continued p) ∨ status = .stillAlive) :
      Dispatched k s status .next s

theorem dispatch_ok (h : dispatch k status s = .ok flow t) : Dispatched k s status flow t := by
  cases status with
  | ptraceSyscall p =>
    obtain ⟨_, _, hCall, ⟨⟩⟩ := bind_ok_iff.mp h
    exact .syscall (dispatchSyscall_ok hCall)
  | ptraceEvent p sig event =>
    have create (hEvent : event.creates = true) (h : dispatchClone k p s = .ok flow t) :
        Dispatched k s (.ptraceEvent p sig event) flow t := by
      obtain ⟨child, v, hChild, hRegister, hFlow⟩ := dispatchClone_ok h
      exact .clone hEvent hChild hRegister hFlow
    have other (hEvent : event.creates = false) (hExit : event ≠ .exit)
        (h : (do resumeTask k p; pure Flow.next : SupM Flow) s = .ok flow t) :
        Dispatched k s (.ptraceEvent p sig event) flow t := by
      obtain ⟨_, _, hResume, ⟨⟩⟩ := bind_ok_iff.mp h
      exact .event hEvent hExit hResume
    cases event with
    | clone => exact create rfl h
    | fork => exact create rfl h
    | vfork => exact create rfl h
    | exit =>
      obtain ⟨_, _, hResume, ⟨⟩⟩ := bind_ok_iff.mp h
      obtain ⟨hOk, rfl⟩ := resumeThread_ok.mp hResume
      exact .dying hOk
    | exec => exact other rfl (by decide) h
    | vforkDone => exact other rfl (by decide) h
    | seccomp => exact other rfl (by decide) h
    | stop => exact other rfl (by decide) h
  | stopped p sig =>
    obtain ⟨_, _, hStop, ⟨⟩⟩ := bind_ok_iff.mp h
    exact .stopped (dispatchStopped_ok hStop)
  | exited p code =>
    simp only [dispatch, bind_ok_iff, get_apply] at h
    obtain ⟨_, _, ⟨⟩, h⟩ := h
    split at h
    · rename_i hInit
      obtain ⟨_, _, ⟨⟩, ⟨⟩⟩ := bind_ok_iff.mp h
      have hDeath : (WaitStatus.exited p code).death = some s.pid := congrArg some hInit
      exact .finished hDeath (.traceJson s _ _)
    · rename_i hOther
      obtain ⟨_, _, hExit, ⟨⟩⟩ := bind_ok_iff.mp h
      exact .died rfl hOther hExit
  | signaled p sig core =>
    simp only [dispatch, bind_ok_iff, get_apply] at h
    obtain ⟨_, _, ⟨⟩, h⟩ := h
    split at h
    · rename_i hInit
      obtain ⟨_, _, ⟨⟩, ⟨⟩⟩ := bind_ok_iff.mp h
      have hDeath : (WaitStatus.signaled p sig core).death = some s.pid := congrArg some hInit
      exact .finished hDeath (.traceJson s _ _)
    · rename_i hOther
      obtain ⟨_, _, hExit, ⟨⟩⟩ := bind_ok_iff.mp h
      exact .died rfl hOther hExit
  | continued p =>
    cases h
    exact .idle (.inl ⟨p, rfl⟩)
  | stillAlive =>
    cases h
    exact .idle (.inr rfl)

/-- The end of the loop body of `run`: it schedules when nobody is current. -/
def RunsOn (k : Answers) (s t : Supervisor) : Prop :=
  (s.current = none ∧ Picks k s t) ∨ (s.current ≠ none ∧ t = s)

theorem runTail_ok (h : runTail k s = .ok u t) : RunsOn k s t := by
  simp only [runTail, bind_ok_iff, get_apply] at h
  obtain ⟨_, _, ⟨⟩, h⟩ := h
  split at h
  · rename_i hCurrent
    exact .inl ⟨hCurrent, scheduleNext_ok h⟩
  · rename_i hCurrent
    cases h
    exact .inr ⟨hCurrent, rfl⟩

/-- How a pass succeeds. -/
inductive Passed (k : Answers) (s : Supervisor) :
    List Await → WaitStatus → Turn → Supervisor → Prop
  | next {status : WaitStatus} {v t : Supervisor} (h : Dispatched k s status .next v)
      (hTail : RunsOn k v t) : Passed k s [] status (.wait []) t
  | again {w : Await} {outer : List Await} {status : WaitStatus} {t : Supervisor}
      (hOther : status ≠ .stopped w.child .SIGSTOP) (h : Dispatched k s status .next t) :
      Passed k s (w :: outer) status (.wait (w :: outer)) t
  | finish {awaits : List Await} {status : WaitStatus} {code : Int} {t : Supervisor}
      (h : Dispatched k s status (.exit code) t) : Passed k s awaits status (.done code) t
  | await {awaits : List Await} {inner : Await} {status : WaitStatus} {t : Supervisor}
      (h : Dispatched k s status (.await inner) t) :
      Passed k s awaits status (.wait (inner :: awaits)) t
  | attached {w : Await} {outer : List Await} {v v' t : Supervisor}
      (hRelease : release k w.child
        { s with pendingStart := s.pendingStart.erase w.child } = .ok () v)
      (hResume : resumeTask k w.parent v = .ok () v')
      (hTail : (outer = [] ∧ RunsOn k v' t) ∨ (outer ≠ [] ∧ t = v')) :
      Passed k s (w :: outer) (.stopped w.child .SIGSTOP) (.wait outer) t

theorem pass_ok {awaits : List Await} {turn : Turn} (h : pass k awaits status s = .ok turn t) :
    Passed k s awaits status turn t := by
  cases awaits with
  | nil =>
    simp only [pass, runPass, bind_ok_iff] at h
    obtain ⟨flow, v, hDispatch, h⟩ := h
    have hDispatched := dispatch_ok hDispatch
    cases flow with
    | next =>
      obtain ⟨_, _, hTail, ⟨⟩⟩ := bind_ok_iff.mp h
      exact .next hDispatched (runTail_ok hTail)
    | exit code =>
      cases h
      exact .finish hDispatched
    | await w =>
      cases h
      exact .await hDispatched
  | cons w outer =>
    simp only [pass, awaitPass] at h
    split at h
    · rename_i hStop
      simp only [bind_ok_iff, modify_apply] at h
      obtain ⟨_, _, ⟨⟩, _, v, hRelease, _, v', hResume, h⟩ := h
      rw [hStop]
      split at h
      · rename_i hLast
        obtain ⟨_, _, hTail, ⟨⟩⟩ := bind_ok_iff.mp h
        exact .attached hRelease hResume (.inl ⟨hLast, runTail_ok hTail⟩)
      · rename_i hMore
        cases h
        exact .attached hRelease hResume (.inr ⟨hMore, rfl⟩)
    · rename_i hOther
      simp only [bind_ok_iff] at h
      obtain ⟨flow, v, hDispatch, h⟩ := h
      have hDispatched := dispatch_ok hDispatch
      cases flow with
      | next =>
        cases h
        exact .again hOther hDispatched
      | exit code =>
        cases h
        exact .finish hDispatched
      | await inner =>
        cases h
        exact .await hDispatched

theorem pass_wait {awaits awaits' : List Await}
    (h : pass k awaits status s = .ok (.wait awaits') t) :
    (∃ flow v, dispatch k status s = .ok flow v ∧ (∀ code, flow ≠ .exit code) ∧
      (t = v ∨ RunsOn k v t)) ∨
    ∃ a outer v v', awaits = a :: outer ∧ status = .stopped a.child .SIGSTOP ∧
      release k a.child { s with pendingStart := s.pendingStart.erase a.child } = .ok () v ∧
      resumeTask k a.parent v = .ok () v' ∧ (t = v' ∨ RunsOn k v' t) := by
  cases awaits with
  | nil =>
    simp only [pass, runPass, bind_ok_iff] at h
    obtain ⟨flow, v, hDispatch, h⟩ := h
    refine .inl ⟨flow, v, hDispatch, ?_⟩
    cases flow with
    | next =>
      obtain ⟨_, _, hTail, ⟨⟩⟩ := bind_ok_iff.mp h
      exact ⟨by simp, .inr (runTail_ok hTail)⟩
    | exit code => cases h
    | await a =>
      cases h
      exact ⟨by simp, .inl rfl⟩
  | cons a outer =>
    simp only [pass, awaitPass] at h
    split at h
    · rename_i hStop
      simp only [bind_ok_iff, modify_apply] at h
      obtain ⟨_, _, ⟨⟩, _, v, hRelease, _, v', hResume, h⟩ := h
      refine .inr ⟨a, outer, v, v', rfl, hStop, hRelease, hResume, ?_⟩
      split at h
      · obtain ⟨_, _, hTail, ⟨⟩⟩ := bind_ok_iff.mp h
        exact .inr (runTail_ok hTail)
      · cases h
        exact .inl rfl
    · obtain ⟨flow, v, hDispatch, h⟩ := bind_ok_iff.mp h
      refine .inl ⟨flow, v, hDispatch, ?_⟩
      cases flow with
      | next =>
        cases h
        exact ⟨by simp, .inl rfl⟩
      | exit code => cases h
      | await inner =>
        cases h
        exact ⟨by simp, .inl rfl⟩

theorem Dispatched.death_ne {p : Pid} (h : Dispatched k s status flow t)
    (hFlow : ∀ code, flow ≠ .exit code) (hDeath : status.death = some p) : p ≠ s.pid := by
  cases h with
  | finished => exact absurd rfl (hFlow _)
  | died hDied hOther _ =>
    rw [hDied] at hDeath
    cases hDeath
    exact hOther
  | idle hIdle =>
    rcases hIdle with ⟨q, rfl⟩ | rfl
    · cases hDeath
    · cases hDeath
  | _ => cases hDeath

theorem Passed.death_ne {p : Pid} {awaits awaits' : List Await} {status : WaitStatus}
    (h : Passed k s awaits status (.wait awaits') t) (hDeath : status.death = some p) :
    p ≠ s.pid := by
  cases h with
  | next h _ => exact h.death_ne (by simp) hDeath
  | again _ h => exact h.death_ne (by simp) hDeath
  | await h => exact h.death_ne (by simp) hDeath
  | attached _ _ _ => cases hDeath

theorem Machine.settle_sv (log : List Effect)
    (result : EStateM.Result SuperviseError Supervisor Turn) :
    (settle log result).sv = final result := by
  cases result with
  | error e t => rfl
  | ok turn t =>
    cases turn with
    | wait awaits => rfl
    | done code => rfl

theorem Machine.step_settle {m : Machine} {r : Report} (hOpen : m.result = none)
    (hStatus : r.status = .ok status) :
    m.step r = settle m.log (pass r.answers m.awaits status { m.sv with effects := [] }) := by
  simp only [step, hOpen, handle, hStatus]

theorem Machine.step_sv {m : Machine} {r : Report} (hOpen : m.result = none)
    (hStatus : r.status = .ok status) :
    (m.step r).sv = final (pass r.answers m.awaits status { m.sv with effects := [] }) := by
  rw [step_settle hOpen hStatus]
  exact settle_sv _ _

theorem handle_pass {awaits : List Await} {r : Report} {result : EStateM.Result SuperviseError
    Supervisor Turn} (h : handle awaits r s = result) (hNot : ∀ e t, result ≠ .error (.wait e) t) :
    ∃ status, r.status = .ok status ∧ pass r.answers awaits status s = result := by
  rw [handle] at h
  cases hStatus : r.status with
  | error e =>
    rw [hStatus] at h
    exact absurd h.symm (hNot e s)
  | ok status =>
    rw [hStatus] at h
    exact ⟨status, rfl, h⟩

/-- Between two statuses the machine is where the last pass left it. -/
theorem Machine.step_pass {m : Machine} {r : Report} (hOpen : m.result = none)
    (hNext : (m.step r).result = none) :
    ∃ status, r.status = .ok status ∧
      pass r.answers m.awaits status { m.sv with effects := [] } =
        .ok (.wait (m.step r).awaits) (m.step r).sv := by
  simp only [Machine.step, hOpen] at hNext ⊢
  cases hHandle : handle m.awaits r { m.sv with effects := [] } with
  | error e v =>
    simp only [hHandle, Machine.settle] at hNext
    cases hNext
  | ok turn v =>
    cases turn with
    | done code =>
      simp only [hHandle, Machine.settle] at hNext
      cases hNext
    | wait awaits => exact handle_pass hHandle fun _ _ hEq => by cases hEq

theorem Machine.step_wait {m : Machine} {r : Report} (hOpen : m.result = none)
    (hNext : (m.step r).result = none) :
    ∃ status, r.status = .ok status ∧
      Passed r.answers { m.sv with effects := [] } m.awaits status (.wait (m.step r).awaits)
        (m.step r).sv := by
  obtain ⟨status, hStatus, hPass⟩ := step_pass hOpen hNext
  exact ⟨status, hStatus, pass_ok hPass⟩

theorem Machine.start_wait {pid : Pid} {seed : U64} (hNext : (start pid seed k).result = none) :
    (start pid seed k).awaits = [] ∧ Picks k (fresh pid seed) (start pid seed k).sv := by
  simp only [start] at hNext ⊢
  cases hBoot : boot k (fresh pid seed) with
  | error e v =>
    simp only [hBoot, settle] at hNext
    cases hNext
  | ok turn v =>
    simp only [boot, bind_ok_iff] at hBoot
    obtain ⟨_, _, hNext, ⟨⟩⟩ := hBoot
    exact ⟨rfl, scheduleNext_ok hNext⟩

end Dtrun
