import Dtrun.Supervisor.GroupExit

/-! # When the kernel refuses nothing

Every error but `Deadlock` is one of the kernel's. Where it grants all requests, a pass ends in
waiting, in the init's exit code or in a deadlock; and a death under the group-exit flag is none.
-/
namespace Dtrun
set_option autoImplicit false
open FiniteMap StateExcept Transition Supervisor

variable {k : Answers} {s t v : Supervisor} {p : Pid} {r : Report} {status : WaitStatus}
  {awaits : List Await} {P : SuperviseError → Prop}

theorem runThread_fails (hk : k.Errors P) (thread : Thread) :
    FailsWith P (runThread k p thread) := by
  refine .bind .get fun s => ?_
  exact .bind (.set _) fun _ => resumeThread_fails hk

theorem scheduleLoop_fails (hk : k.Errors P) (hOwn : P .deadlock) (queue : List Pid) :
    FailsWith P (scheduleLoop k queue) := by
  induction queue with
  | nil =>
    refine .bind .get fun s => ?_
    split
    · exact .pure _
    · exact .throw hOwn
  | cons tid rest ih =>
    refine .bind (.modify _) fun _ => .bind .get fun s => ?_
    split
    · exact ih
    · split
      · exact ih
      · exact runThread_fails hk _

theorem scheduleNext_fails (hk : k.Errors P) (hOwn : P .deadlock) :
    FailsWith P (scheduleNext k) :=
  .bind .get fun s => scheduleLoop_fails hk hOwn s.runnable

theorem dispatchSyscall_fails (hk : k.Errors P) (hOwn : P .deadlock) :
    FailsWith P (dispatchSyscall k p) := by
  refine .bind (ptraceResult_fails (hk.syscallInfo p)) fun op => .bind .get fun s => ?_
  split
  · cases op with
    | entry => exact .bind (.discard (onSyscallEntry_fails hk)) fun _ => resumeThread_fails hk
    | exit => exact .bind (onSyscallExit_fails hk) fun _ => resumeThread_fails hk
    | none => exact resumeThread_fails hk
    | seccomp => exact resumeThread_fails hk
  · cases op with
    | entry =>
      refine .bind (onSyscallEntry_fails hk) fun b => ?_
      cases b with
      | true => exact .modify _
      | false => exact resumeCurrent_fails hk
    | exit =>
      exact .bind (onSyscallExit_fails hk) fun _ => .bind (.modify _) fun _ =>
        scheduleNext_fails hk hOwn
    | none => exact resumeCurrent_fails hk
    | seccomp => exact resumeCurrent_fails hk

theorem dispatchExit_fails (hk : k.Errors P) (hOwn : P .deadlock) :
    FailsWith P (dispatchExit k p) := by
  refine .bind .get fun s => .bind (.set _) fun _ => .bind .get fun v => ?_
  split
  · exact .bind (.modify _) fun _ => scheduleNext_fails hk hOwn
  · exact .pure _

theorem dispatch_fails (hk : k.Errors P) (hOwn : P .deadlock)
    (hChild : ∀ p sig event e, status = .ptraceEvent p sig event → event.creates = true →
      k.getevent p = .error e → P (.ptrace e)) : FailsWith P (dispatch k status) := by
  have next {x : SupM Unit} (hx : FailsWith P x) :
      FailsWith P (do x; pure Flow.next : SupM Flow) := .bind hx fun _ => .pure _
  have death (p : Pid) (record : Supervisor → Supervisor) (code : Int) : FailsWith P (do
      if p = (← get).pid then
        modify record
        pure (Flow.exit code)
      else
        dispatchExit k p
        pure Flow.next : SupM Flow) := by
    refine .bind .get fun s => ?_
    split
    · exact .bind (.modify _) fun _ => .pure _
    · exact next (dispatchExit_fails hk hOwn)
  cases status with
  | ptraceSyscall p => exact next (dispatchSyscall_fails hk hOwn)
  | ptraceEvent p sig event =>
    have hClone (hEvent : event.creates = true) : FailsWith P (dispatchClone k p) :=
      dispatchClone_fails hk fun e => hChild p sig event e rfl hEvent
    cases event with
    | clone => exact hClone rfl
    | fork => exact hClone rfl
    | vfork => exact hClone rfl
    | exit => exact next (resumeThread_fails hk)
    | exec => exact next (resumeTask_fails hk)
    | vforkDone => exact next (resumeTask_fails hk)
    | seccomp => exact next (resumeTask_fails hk)
    | stop => exact next (resumeTask_fails hk)
  | stopped p sig => exact next (dispatchStopped_fails hk sig)
  | exited p code => exact death p _ _
  | signaled p sig core => exact death p _ _
  | continued p => exact .pure _
  | stillAlive => exact .pure _

theorem runTail_fails (hk : k.Errors P) (hOwn : P .deadlock) : FailsWith P (runTail k) := by
  refine .bind .get fun s => ?_
  split
  · exact scheduleNext_fails hk hOwn
  · exact .pure _

theorem pass_fails (hk : k.Errors P) (hOwn : P .deadlock)
    (hChild : ∀ p sig event e, status = .ptraceEvent p sig event → event.creates = true →
      k.getevent p = .error e → P (.ptrace e)) (awaits : List Await) :
    FailsWith P (pass k awaits status) := by
  cases awaits with
  | nil =>
    refine .bind (dispatch_fails hk hOwn hChild) fun flow => ?_
    cases flow with
    | next => exact .bind (runTail_fails hk hOwn) fun _ => .pure _
    | exit code => exact .pure _
    | await w => exact .pure _
  | cons w outer =>
    simp only [pass, awaitPass]
    split
    · refine .bind (.modify _) fun _ => .bind (release_fails hk) fun _ =>
        .bind (resumeTask_fails hk) fun _ => ?_
      split
      · exact .bind (runTail_fails hk hOwn) fun _ => .pure _
      · exact .pure _
    · refine .bind (dispatch_fails hk hOwn hChild) fun flow => ?_
      cases flow with
      | next => exact .pure _
      | exit code => exact .pure _
      | await inner => exact .pure _

/-- Every request made for any task is granted. Reading memory is asked for, not relied on. -/
structure Answers.Grants (k : Answers) : Prop where
  syscallInfo : ∀ p, ∃ op, k.syscallInfo p = .ok op
  getregs : ∀ p, ∃ regs, k.getregs p = .ok regs
  setregs : ∀ p, k.setregs p = .ok ()
  syscall : ∀ p, k.syscall p = .ok ()
  writeMem : ∀ p addr data, ∃ n, k.writeMem p addr data = .ok n

/-- The wait succeeds, and with it all that is asked before the next one. -/
structure Report.Granted (r : Report) : Prop where
  status : ∃ status, r.status = .ok status
  answers : r.answers.Grants

theorem Answers.Grants.errors (h : k.Grants) (P : SuperviseError → Prop) : k.Errors P where
  syscallInfo p e hError := by
    obtain ⟨op, hOk⟩ := h.syscallInfo p
    rw [hOk] at hError
    cases hError
  getregs p e hError := by
    obtain ⟨regs, hOk⟩ := h.getregs p
    rw [hOk] at hError
    cases hError
  setregs p e hError := by
    rw [h.setregs p] at hError
    cases hError
  syscall p e hError := by
    rw [h.syscall p] at hError
    cases hError
  writeMem p addr data e hError := by
    obtain ⟨n, hOk⟩ := h.writeMem p addr data
    rw [hOk] at hError
    cases hError

theorem Tracees.allows_getevent {t : Tracees} {sig : Signal} {event : Event}
    (hStatus : r.status = .ok (.ptraceEvent p sig event)) (hEvent : event.creates = true)
    (hAllows : t.allows r = true) : ∃ c, r.answers.getevent p = .ok c := by
  cases hAnswer : r.answers.getevent p with
  | ok c => exact ⟨c, rfl⟩
  | error e =>
    have hExit : event ≠ .exit := by
      rintro rfl
      cases hEvent
    cases hTask : t.task p with
    | none => cases event <;> simp_all [allows]
    | some x => cases event <;> cases hCloned : x.cloned <;> simp_all [allows, Event.creates]

theorem pass_granted {t : Tracees} {e : SuperviseError} (hGranted : r.Granted)
    (hStatus : r.status = .ok status) (hAllows : t.allows r = true)
    (hPass : pass r.answers awaits status s = .error e v) : e = .deadlock := by
  have hFails : FailsWith (fun e => e = .deadlock) (pass r.answers awaits status) := by
    refine pass_fails (P := fun e => e = .deadlock) (hGranted.answers.errors _) rfl
      (fun p sig event e hEvent hCreates hError => ?_) awaits
    subst hEvent
    obtain ⟨c, hChild⟩ := Tracees.allows_getevent hStatus hCreates hAllows
    rw [hChild] at hError
    cases hError
  exact hFails _ _ _ hPass

end Dtrun
