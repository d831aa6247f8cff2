import Dtrun.Supervisor.GroupExit
import Dtrun.Supervisor.Notes

/-! # Which exits are recorded

`thread_exit` is recorded in one place, at the death of the task that `current` names. No other
handler writes such a record, also where it fails.
-/
namespace Dtrun
set_option autoImplicit false
open FiniteMap StateExcept Transition Supervisor Record

variable {k : Answers} {s v : Supervisor} {p : Pid} {status : WaitStatus} {awaits : List Await}

/-- The thread id of a `thread_exit` record. -/
def Record.exited (r : Record) : Option Value :=
  if r.event = "thread_exit" then r.value "tid" else none

namespace Supervisor

def exits (s : Supervisor) : List Value := s.trace.filterMap Record.exited

def exitOf (s : Supervisor) (p : Pid) : List Value :=
  ((s.threads.get p).map fun thread => Value.num thread.vtid).toList

theorem exits_traceJson (s : Supervisor) {event : String} (detail : List (String × Value))
    (hEvent : event ≠ "thread_exit") : (s.traceJson event detail).exits = s.exits := by
  simp [exits, traceJson, Record.exited, hEvent]

theorem exits_onThreadExit (s : Supervisor) (p : Pid) (record : Bool) :
    (s.onThreadExit p record).exits = s.exits ++ if record then s.exitOf p else [] := by
  cases hLookup : s.threads.get p with
  | none =>
    simp only [onThreadExit, hLookup, exitOf, Option.map_none, Option.toList_none, ite_self,
      List.append_nil]
    rfl
  | some thread =>
    simp only [onThreadExit, hLookup]
    rw [clearTidWake_frame]
    cases record with
    | true =>
      simp [exits, forget, traceJson, exitOf, hLookup, Record.exited, Record.value]
    | false => simp [exits, forget]

theorem exits_follows : Follows Supervisor.exits where
  same := fun _ _ hTrace _ => congrArg (List.filterMap Record.exited) hTrace
  note := fun s _ detail hEvent => s.exits_traceJson detail hEvent

end Supervisor

theorem dispatchExit_exits (s : Supervisor) : (final (dispatchExit k p s)).exits =
    s.exits ++ if s.current = some p then s.exitOf p else [] := by
  have hRecord : (s.onThreadExit p (s.current = some p)).exits =
      s.exits ++ if s.current = some p then s.exitOf p else [] := by
    rw [exits_onThreadExit]
    simp only [decide_eq_true_eq]
  rw [dispatchExit, bind_of_ok (get_apply s), bind_of_ok (set_apply _ _),
    bind_of_ok (get_apply _)]
  split
  · exact (Keeps.bind (.modify fun _ => rfl) (fun _ => scheduleNext_overlooks exits_follows.overlooks) _).trans hRecord
  · exact hRecord

theorem dispatch_exits (s : Supervisor) : (final (dispatch k status s)).exits = s.exits ++
    match status.death with
    | some p => if p ≠ s.pid ∧ s.current = some p then s.exitOf p else []
    | none => [] := by
  have kept (hNone : status.death = none) (h : Keeps Supervisor.exits (dispatch k status)) :
      (final (dispatch k status s)).exits = s.exits ++
        match status.death with
        | some p => if p ≠ s.pid ∧ s.current = some p then s.exitOf p else []
        | none => [] := by
    rw [hNone, List.append_nil]
    exact h s
  have next {x : SupM Unit} (hx : Keeps Supervisor.exits x) :
      Keeps Supervisor.exits (do x; pure Flow.next : SupM Flow) := .bind hx fun _ => .pure _
  have death {q : Pid} (hDeath : status.death = some q)
      (hLast : q = s.pid → (final (dispatch k status s)).exits = s.exits) :
      (final (dispatch k status s)).exits = s.exits ++ match status.death with
        | some p => if p ≠ s.pid ∧ s.current = some p then s.exitOf p else []
        | none => [] := by
    by_cases hInit : q = s.pid
    · simp [hDeath, hInit, hLast hInit]
    · rw [dispatch_death hDeath hInit, dispatchExit_exits, hDeath]
      simp [hInit]
  cases status with
  | ptraceSyscall p => exact kept rfl (next (exits_follows.dispatchSyscall))
  | ptraceEvent p sig event =>
    refine kept rfl ?_
    cases event with
    | clone => exact dispatchClone_overlooks exits_follows.overlooks
    | fork => exact dispatchClone_overlooks exits_follows.overlooks
    | vfork => exact dispatchClone_overlooks exits_follows.overlooks
    | exit => exact next (exits_follows.overlooks.of_ledger resumeThread_ledger)
    | exec => exact next (exits_follows.overlooks.of_ledger resumeTask_ledger)
    | vforkDone => exact next (exits_follows.overlooks.of_ledger resumeTask_ledger)
    | seccomp => exact next (exits_follows.overlooks.of_ledger resumeTask_ledger)
    | stop => exact next (exits_follows.overlooks.of_ledger resumeTask_ledger)
  | stopped p sig => exact kept rfl (next (dispatchStopped_overlooks exits_follows.overlooks sig))
  | exited p code =>
    refine death rfl fun hInit => ?_
    rw [dispatch, bind_of_ok (get_apply s), if_pos hInit]
    exact s.exits_traceJson _ (by decide)
  | signaled p sig core =>
    refine death rfl fun hInit => ?_
    rw [dispatch, bind_of_ok (get_apply s), if_pos hInit]
    exact s.exits_traceJson _ (by decide)
  | continued p => exact kept rfl (.pure _)
  | stillAlive => exact kept rfl (.pure _)

/-- A pass records the exit of a task, other than the init, that is reported dead while it is
current, and no other. -/
theorem pass_exits (s : Supervisor) : (final (pass k awaits status s)).exits = s.exits ++
    match status.death with
    | some p => if p ≠ s.pid ∧ s.current = some p then s.exitOf p else []
    | none => [] := by
  cases awaits with
  | nil =>
    refine (Keeps.final_bind (fun flow => ?_) s).trans (dispatch_exits s)
    cases flow with
    | next => exact .bind (runTail_overlooks exits_follows.overlooks) fun _ => .pure _
    | exit code => exact .pure _
    | await w => exact .pure _
  | cons w outer =>
    simp only [pass, awaitPass]
    split
    · rename_i hStop
      have hNone : status.death = none := congrArg WaitStatus.death hStop
      rw [hNone, List.append_nil]
      refine (Keeps.final_bind (fun _ => .bind (exits_follows.overlooks.of_ledger release_ledger) fun _ =>
        .bind (exits_follows.overlooks.of_ledger resumeTask_ledger) fun _ => ?_) s).trans rfl
      split
      · exact .bind (runTail_overlooks exits_follows.overlooks) fun _ => .pure _
      · exact .pure _
    · refine (Keeps.final_bind (fun flow => ?_) s).trans (dispatch_exits s)
      cases flow with
      | next => exact .pure _
      | exit code => exact .pure _
      | await inner => exact .pure _

theorem exits_of_pass {x : EStateM.Result SuperviseError Supervisor Turn}
    (hPass : pass k awaits status s = x) : (final x).exits = s.exits ++
      match status.death with
      | some p => if p ≠ s.pid ∧ s.current = some p then s.exitOf p else []
      | none => [] := by
  rw [← hPass]
  exact pass_exits s

end Dtrun
