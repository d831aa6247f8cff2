import Dtrun.Supervisor.Deadlock

/-! # What choosing, releasing and resuming leave alone

System calls, clone events and deaths aside, a handler moves tasks between the running ones and the
ready ones and nothing more: it leaves the seeded services, the pending injections, the requests
other than resumes, the parked threads and the stashed clone arguments, also where it fails.
-/
namespace Dtrun
set_option autoImplicit false
open FiniteMap StateExcept Supervisor

variable {k : Answers} {p : Pid}

structure Core where
  pid : Pid
  groupExiting : Bool
  rng : Prng
  tick : U64
  pending : PidMap PendingInject
  requests : List Effect

def Supervisor.core (s : Supervisor) : Core where
  pid := s.pid
  groupExiting := s.groupExiting
  rng := s.rng
  tick := s.tick
  pending := s.pending
  requests := s.effects.filter fun e => !e.isResume

structure Base where
  core : Core
  blocked : Finset Pid
  waiting : Map U64 (List Pid)
  clonePending : PidMap CloneInfo

def Supervisor.base (s : Supervisor) : Base := ⟨s.core, s.blocked, s.waiting, s.clonePending⟩

theorem core_resume (s : Supervisor) (p : Pid) (sig : Option Signal) :
    ({ s with effects := s.effects ++ [.resume p sig] } : Supervisor).core = s.core := by
  simp [core, Effect.isResume]

theorem base_resume (s : Supervisor) (p : Pid) (sig : Option Signal) :
    ({ s with effects := s.effects ++ [.resume p sig] } : Supervisor).base = s.base :=
  congrArg (Base.mk · s.blocked s.waiting s.clonePending) (core_resume s p sig)

theorem ptraceResult_keeps {α γ : Type} {f : Supervisor → γ} (r : Except Errno α) :
    Keeps f (ptraceResult r) := by
  cases r with
  | ok a => exact .pure a
  | error e => exact .throw _

theorem ptraceSyscall_base (sig : Option Signal) : Keeps Supervisor.base (ptraceSyscall k p sig) :=
  .bind (ptraceResult_keeps _) fun _ => .modify fun s => base_resume s p sig

theorem resumeThread_base : Keeps Supervisor.base (resumeThread k p) :=
  fun _ => .get_bind (.set_bind rfl (ptraceSyscall_base _))

theorem resumeCurrent_base : Keeps Supervisor.base (resumeCurrent k p) := by
  refine .bind .get fun s => ?_
  split
  · exact resumeThread_base
  · exact .pure _

theorem resumeTask_base : Keeps Supervisor.base (resumeTask k p) := by
  refine .bind .get fun s => ?_
  split
  · exact resumeCurrent_base
  · exact resumeThread_base

theorem release_base : Keeps Supervisor.base (release k p) := by
  refine .bind .get fun s => ?_
  split
  · exact .modify fun _ => rfl
  · exact resumeThread_base

theorem runThread_base (thread : Thread) : Keeps Supervisor.base (runThread k p thread) := by
  refine fun s => .get_bind (.set_bind ?_ resumeThread_base)
  split
  · rfl
  · rfl

theorem scheduleLoop_base (queue : List Pid) : Keeps Supervisor.base (scheduleLoop k queue) := by
  induction queue with
  | nil =>
    refine .bind .get fun s => ?_
    split
    · exact .pure _
    · exact .throw _
  | cons tid rest ih =>
    refine .bind (.modify fun _ => rfl) fun _ => .bind .get fun s => ?_
    split
    · exact ih
    · split
      · exact ih
      · exact runThread_base _

theorem scheduleNext_base : Keeps Supervisor.base (scheduleNext k) :=
  .bind .get fun s => scheduleLoop_base s.runnable

theorem yieldCurrent_base : Keeps Supervisor.base (yieldCurrent k p) := by
  refine .bind (.modify fun s => ?_) fun _ => scheduleNext_base
  split
  · rfl
  · rfl

theorem registerThread_base (info : CloneInfo) :
    Keeps Supervisor.base (registerThread k p info) := by
  refine fun s => .get_bind ?_
  split
  · exact Keeps.pure _ s
  · refine .set_bind rfl ?_
    split
    · exact .bind (.modify fun _ => rfl) fun _ => .bind release_base fun _ =>
        .modify fun _ => rfl
    · exact .bind (.modify fun _ => rfl) fun _ => .modify fun _ => rfl

theorem dispatchStopped_base (sig : Signal) : Keeps Supervisor.base (dispatchStopped k p sig) := by
  refine fun s => .get_bind ?_
  split
  · split
    · exact resumeThread_base s
    · split
      · exact .set_bind rfl release_base
      · split
        · exact .set rfl
        · exact Keeps.pure _ s
  · split
    · exact ptraceSyscall_base _ s
    · split
      · exact .set rfl
      · split
        · exact ptraceSyscall_base _ s
        · exact Keeps.pure _ s

theorem runTail_base : Keeps Supervisor.base (runTail k) := by
  refine .bind .get fun s => ?_
  split
  · exact scheduleNext_base
  · exact .pure _

theorem dispatchClone_base (s : Supervisor) : (final (dispatchClone k p s)).base =
    match k.getevent p with
    | .ok _ => { s.base with clonePending := s.clonePending.erase p }
    | .error _ => s.base := by
  cases hChild : k.getevent p with
  | error e =>
    rw [dispatchClone, hChild]
    rfl
  | ok child =>
    have rest (info : CloneInfo) : Keeps Supervisor.base (do
        registerThread k child info
        if child ∈ (← get).pendingStart then
          pure (.await ⟨child, p⟩)
        else
          resumeTask k p
          pure .next : SupM Flow) := by
      refine .bind (registerThread_base info) fun _ => .bind .get fun v => ?_
      split
      · exact .pure _
      · exact .bind resumeTask_base fun _ => .pure _
    rw [dispatchClone, bind_of_ok (ptraceResult_ok.mpr ⟨hChild, rfl⟩), bind_of_ok (get_apply s),
      bind_of_ok (set_apply _ _)]
    exact rest _ { s with clonePending := s.clonePending.erase p }

theorem dispatchExit_base (s : Supervisor) :
    (final (dispatchExit k p s)).base = (s.onThreadExit p (s.current = some p)).base := by
  rw [dispatchExit, bind_of_ok (get_apply s), bind_of_ok (set_apply _ _), bind_of_ok (get_apply _)]
  split
  · exact Keeps.bind (.modify fun _ => rfl) (fun _ => scheduleNext_base) _
  · rfl

theorem dispatchSyscall_base (s : Supervisor) : (final (dispatchSyscall k p s)).base =
    match k.syscallInfo p with
    | .ok .entry => (final (onSyscallEntry k p s)).base
    | .ok .exit => (final (onSyscallExit k p s)).base
    | _ => s.base := by
  have tail (b : Bool) : Keeps Supervisor.base (if b then modify fun sv =>
      { sv with current := none } else resumeCurrent k p : SupM Unit) := by
    cases b with
    | true => exact .modify fun _ => rfl
    | false => exact resumeCurrent_base
  cases hOp : k.syscallInfo p with
  | error e =>
    rw [dispatchSyscall, hOp]
    rfl
  | ok op =>
    rw [dispatchSyscall, hOp]
    change (final ((if ¬ s.isScheduled p then _ else _ : SupM Unit) s)).base = _
    split
    · cases op with
      | entry =>
        refine (Keeps.final_bind (fun _ => resumeThread_base) s).trans ?_
        rw [final_discard]
      | exit => exact Keeps.final_bind (fun _ => resumeThread_base) s
      | none => exact resumeThread_base s
      | seccomp => exact resumeThread_base s
    · cases op with
      | entry => exact Keeps.final_bind tail s
      | exit => exact Keeps.final_bind (fun _ => yieldCurrent_base) s
      | none => exact resumeCurrent_base s
      | seccomp => exact resumeCurrent_base s

theorem dispatch_base (status : WaitStatus) (s : Supervisor) : (final (dispatch k status s)).base =
    match status with
    | .ptraceSyscall p => (final (dispatchSyscall k p s)).base
    | .ptraceEvent p _ event => if event.creates then (final (dispatchClone k p s)).base else s.base
    | .exited p _ | .signaled p _ _ =>
      if p = s.pid then s.base else (s.onThreadExit p (s.current = some p)).base
    | .stopped _ _ | .continued _ | .stillAlive => s.base := by
  have next {x : SupM Unit} (hx : Keeps Supervisor.base x) :
      Keeps Supervisor.base (do x; pure Flow.next : SupM Flow) := .bind hx fun _ => .pure _
  have death (p : Pid) (event : String) (note code : Int) : (final ((do
      if p = (← get).pid then
        modify (·.traceLifecycle event note)
        pure (Flow.exit code)
      else
        dispatchExit k p
        pure Flow.next : SupM Flow) s)).base =
      if p = s.pid then s.base else (s.onThreadExit p (s.current = some p)).base := by
    rw [bind_of_ok (get_apply s)]
    split
    · rfl
    · exact (Keeps.final_bind (fun _ => .pure _) s).trans (dispatchExit_base s)
  cases status with
  | ptraceSyscall p => exact Keeps.final_bind (fun _ => .pure _) s
  | ptraceEvent p sig event =>
    cases event with
    | clone => rfl
    | fork => rfl
    | vfork => rfl
    | exit => exact next resumeThread_base s
    | exec => exact next resumeTask_base s
    | vforkDone => exact next resumeTask_base s
    | seccomp => exact next resumeTask_base s
    | stop => exact next resumeTask_base s
  | stopped p sig => exact next (dispatchStopped_base sig) s
  | exited p code => exact death p _ _ _
  | signaled p sig core => exact death p _ _ _
  | continued p => rfl
  | stillAlive => rfl

theorem dispatch_queues {status : WaitStatus} (hCall : ∀ p, status ≠ .ptraceSyscall p)
    (hAlive : status.death = none) (s : Supervisor) :
    (final (dispatch k status s)).blocked = s.blocked ∧
      (final (dispatch k status s)).waiting = s.waiting := by
  change (final (dispatch k status s)).base.blocked = s.blocked ∧
    (final (dispatch k status s)).base.waiting = s.waiting
  rw [dispatch_base]
  cases status with
  | ptraceSyscall p => exact absurd rfl (hCall p)
  | ptraceEvent p sig event =>
    dsimp only
    split
    · rw [dispatchClone_base]
      split
      · exact ⟨rfl, rfl⟩
      · exact ⟨rfl, rfl⟩
    · exact ⟨rfl, rfl⟩
  | stopped p sig => exact ⟨rfl, rfl⟩
  | exited p code => cases hAlive
  | signaled p sig core => cases hAlive
  | continued p => exact ⟨rfl, rfl⟩
  | stillAlive => exact ⟨rfl, rfl⟩

theorem pass_base (awaits : List Await) (status : WaitStatus) (s : Supervisor) :
    (final (pass k awaits status s)).base = (final (dispatch k status s)).base := by
  cases awaits with
  | nil =>
    refine Keeps.final_bind (fun flow => ?_) s
    cases flow with
    | next => exact .bind runTail_base fun _ => .pure _
    | exit code => exact .pure _
    | await w => exact .pure _
  | cons w outer =>
    simp only [pass, awaitPass]
    split
    · rename_i hStop
      rw [dispatch_base, hStop]
      refine (Keeps.final_bind (fun _ => .bind release_base fun _ =>
        .bind resumeTask_base fun _ => ?_) s).trans rfl
      split
      · exact .bind runTail_base fun _ => .pure _
      · exact .pure _
    · refine Keeps.final_bind (fun flow => ?_) s
      cases flow with
      | next => exact .pure _
      | exit code => exact .pure _
      | await inner => exact .pure _

end Dtrun
