import Dtrun.Supervisor.Records

/-! # The trace is only appended to

Whatever a status leads to, also where it fails, the records written before stay where they are.
-/
namespace Dtrun
set_option autoImplicit false
open FiniteMap StateExcept Supervisor

variable {k : Answers} {p : Pid} {I : Supervisor → Prop}

/-- The property is about the records and outlasts the next one. -/
structure Lasts (I : Supervisor → Prop) : Prop where
  same : ∀ s t : Supervisor, I s → t.trace = s.trace → I t
  note : ∀ (s : Supervisor) (event : String) (detail : List (String × Value)),
    I s → I (s.traceJson event detail)

theorem lasts_records (records : List Record) : Lasts fun s => records <+: s.trace where
  same := fun s t hs hTrace => by rwa [hTrace]
  note := fun s event detail hs => hs.trans (List.prefix_append _ _)

section

variable (hI : Lasts I)
include hI

namespace Lasts

theorem of_ledger {α : Type} {x : SupM α} (h : Keeps Supervisor.ledger x) : Maintains I x :=
  .of_keeps h fun s t hSame hs => hI.same s t hs (congrArg Ledger.trace hSame)

theorem scheduled {s : Supervisor} (hs : I s) (p : Pid) (thread : Thread) :
    I (s.scheduled p thread) := by
  simp only [Supervisor.scheduled]
  split
  · exact hI.same _ _ (hI.note s "schedule"
      [("from", vtidOf s.lastVtid), ("to", .num thread.vtid)] hs) rfl
  · exact hI.same _ _ hs rfl

theorem wake {s : Supervisor} (hs : I s) (addr val : U64) : I (s.wake addr val).2 := by
  rw [wake_frame]
  exact hI.same _ _ hs rfl

theorem virtualClock {s : Supervisor} (hs : I s) (clk : U32) : I (s.virtualClock clk).2 := by
  simp only [Supervisor.virtualClock]
  split
  · exact hs
  · split
    · exact hI.same _ _ hs rfl
    · exact hs

theorem onThreadExit {s : Supervisor} (hs : I s) (p : Pid) (record : Bool) :
    I (s.onThreadExit p record) := by
  simp only [Supervisor.onThreadExit]
  cases s.threads.get p with
  | none => exact hI.same _ _ hs rfl
  | some thread =>
    simp only []
    rw [clearTidWake_frame]
    cases record with
    | true =>
      exact hI.same _ _ (hI.note s "thread_exit" [("tid", .num thread.vtid)] hs) rfl
    | false =>
      exact hI.same _ _ hs rfl

end Lasts

theorem runThread_lasts (thread : Thread) : Maintains I (runThread k p thread) :=
  fun _ => .get_bind (.set_bind (fun hs => hI.scheduled hs p thread)
    (hI.of_ledger resumeThread_ledger))

theorem scheduleLoop_lasts (queue : List Pid) : Maintains I (scheduleLoop k queue) := by
  induction queue with
  | nil =>
    refine .bind .get fun s => ?_
    split
    · exact .pure _
    · exact .throw _
  | cons tid rest ih =>
    refine .bind (.modify fun s hs => hI.same _ _ hs rfl) fun _ => .bind .get fun s => ?_
    split
    · exact ih
    · split
      · exact ih
      · exact runThread_lasts hI _

theorem scheduleNext_lasts : Maintains I (scheduleNext k) :=
  .bind .get fun s => scheduleLoop_lasts hI s.runnable

theorem runTail_lasts : Maintains I (runTail k) := by
  refine .bind .get fun s => ?_
  split
  · exact scheduleNext_lasts hI
  · exact .pure _

theorem yieldCurrent_lasts : Maintains I (yieldCurrent k p) := by
  refine .bind (.modify fun s hs => ?_) fun _ => scheduleNext_lasts hI
  split
  · exact hI.same _ _ hs rfl
  · exact hs

theorem registerThread_lasts (info : CloneInfo) : Maintains I (registerThread k p info) := by
  have created (detail : List (String × Value)) : Maintains I
      (modify fun s : Supervisor => s.traceJson "thread_create" detail : SupM Unit) :=
    .modify fun s hs => hI.note s _ detail hs
  refine fun s => .get_bind ?_
  split
  · exact Maintains.pure _ s
  · refine .set_bind (fun hs => hI.same _ _ hs rfl) ?_
    split
    · exact .bind (.modify fun s hs => hI.same _ _ hs rfl) fun _ =>
        .bind (hI.of_ledger release_ledger) fun _ => created _
    · exact .bind (.modify fun s hs => hI.same _ _ hs rfl) fun _ => created _

theorem interceptGetrandom_lasts (regs : Regs) : Maintains I (interceptGetrandom k p regs) := by
  refine fun s => .get_bind (.set_bind (fun hs => hI.same _ _ hs rfl) ?_)
  split
  · exact .bind (hI.of_ledger (writeProcMem_ledger _ _)) fun _ =>
      .bind (hI.of_ledger (skipSyscall_ledger _ _)) fun _ => .modify fun s hs => hI.note s _ _ hs
  · exact .bind (hI.of_ledger (skipSyscall_ledger _ _)) fun _ =>
      .modify fun s hs => hI.note s _ _ hs

theorem interceptClockGettime_lasts (regs : Regs) :
    Maintains I (interceptClockGettime k p regs) :=
  fun _ => .get_bind (.set_bind (fun hs => hI.virtualClock hs _)
    (.bind (hI.of_ledger (writeProcMem_ledger _ _)) fun _ =>
      .bind (hI.of_ledger (skipSyscall_ledger _ _)) fun _ =>
        .modify fun s hs => hI.note s _ _ hs))

theorem interceptGettimeofday_lasts (regs : Regs) :
    Maintains I (interceptGettimeofday k p regs) :=
  fun _ => .get_bind (.set_bind (fun hs => hI.virtualClock hs CLOCK_REALTIME)
    (.bind (hI.of_ledger (writeProcMem_ledger _ _)) fun _ =>
      .bind (hI.of_ledger (skipSyscall_ledger _ _)) fun _ =>
        .modify fun s hs => hI.note s _ _ hs))

theorem interceptFutex_lasts (regs : Regs) : Maintains I (interceptFutex k p regs) := by
  have note (op kind : String) (b : Bool) : Maintains I
      (do modify (·.traceFutex p op kind); pure b : SupM Bool) :=
    .bind (.modify fun s hs => hI.note s _ _ hs) fun _ => .pure _
  have skip (retval : U64) (op kind : String) : Maintains I (do
      skipSyscall k p SYS_futex retval
      modify (·.traceFutex p op kind)
      pure false : SupM Bool) :=
    .bind (hI.of_ledger (skipSyscall_ledger _ _)) fun _ => note op kind false
  refine fun s => .get_bind ?_
  split
  · exact note _ _ _ s
  · split
    · split
      · exact Maintains.bind (hI.of_ledger (skipSyscall_ledger _ _)) (fun _ =>
          .bind (.modify fun s hs => hI.note (s.block p _) _ _ (hI.same _ _ hs rfl)) fun _ =>
            .pure _) s
      · exact note _ _ _ s
    · split
      · exact .set_bind (fun hs => hI.wake hs _ _) (skip _ _ _)
      · split
        · split
          · exact note _ _ _ s
          · exact .set_bind (fun hs => hI.wake (hI.wake hs _ _) _ _) (skip _ _ _)
        · exact note _ _ _ s

theorem onSyscallEntry_lasts : Maintains I (onSyscallEntry k p) := by
  have answered {x : SupM Unit} (hx : Maintains I x) :
      Maintains I (do x; pure false : SupM Bool) := .bind hx fun _ => .pure _
  refine .bind (hI.of_ledger (ptraceResult_ledger _)) fun regs => ?_
  simp only []
  split
  · exact answered (interceptGetrandom_lasts hI regs)
  · split
    · exact answered (interceptClockGettime_lasts hI regs)
    · split
      · exact answered (interceptGettimeofday_lasts hI regs)
      · split
        · exact interceptFutex_lasts hI regs
        · split
          · exact answered (.modify fun s hs => hI.note _ _ _ (hI.same _ _ hs rfl))
          · split
            · exact .bind (.modify fun s hs => hI.same _ _ hs rfl) fun _ =>
                answered (.modify fun s hs => hI.note s _ _ hs)
            · exact answered (.modify fun s hs => hI.note s _ _ hs)

theorem onSyscallExit_lasts : Maintains I (onSyscallExit k p) := by
  refine fun s => .get_bind (.set_bind (fun hs => hI.same _ _ hs rfl) ?_)
  split
  · exact .pure _
  · exact .bind (hI.of_ledger (ptraceResult_ledger _)) fun regs =>
      .bind (.bind (hI.of_ledger (ptraceResult_ledger _)) fun _ =>
        .modify fun s hs => hI.same _ _ hs rfl) fun _ => .modify fun s hs => hI.note s _ _ hs

theorem dispatchSyscall_lasts : Maintains I (dispatchSyscall k p) := by
  refine .bind (hI.of_ledger (ptraceResult_ledger _)) fun op => .bind .get fun s => ?_
  split
  · cases op with
    | entry =>
      exact .bind (.discard (onSyscallEntry_lasts hI)) fun _ => hI.of_ledger resumeThread_ledger
    | exit => exact .bind (onSyscallExit_lasts hI) fun _ => hI.of_ledger resumeThread_ledger
    | none => exact hI.of_ledger resumeThread_ledger
    | seccomp => exact hI.of_ledger resumeThread_ledger
  · cases op with
    | entry =>
      refine .bind (onSyscallEntry_lasts hI) fun parked => ?_
      cases parked with
      | true => exact .modify fun s hs => hI.same _ _ hs rfl
      | false => exact hI.of_ledger resumeCurrent_ledger
    | exit => exact .bind (onSyscallExit_lasts hI) fun _ => yieldCurrent_lasts hI
    | none => exact hI.of_ledger resumeCurrent_ledger
    | seccomp => exact hI.of_ledger resumeCurrent_ledger

theorem dispatchClone_lasts : Maintains I (dispatchClone k p) := by
  refine .bind (hI.of_ledger (ptraceResult_ledger _)) fun child => fun s =>
    .get_bind (.set_bind (fun hs => hI.same _ _ hs rfl) ?_)
  refine .bind (registerThread_lasts hI _) fun _ => .bind .get fun v => ?_
  split
  · exact .pure _
  · exact .bind (hI.of_ledger resumeTask_ledger) fun _ => .pure _

theorem dispatchStopped_lasts (sig : Signal) : Maintains I (dispatchStopped k p sig) := by
  refine fun s => .get_bind ?_
  split
  · split
    · exact hI.of_ledger resumeThread_ledger s
    · split
      · exact .set_bind (fun hs => hI.same _ _ hs rfl) (hI.of_ledger release_ledger)
      · split
        · exact .set (fun hs => hI.same _ _ hs rfl)
        · exact Maintains.pure _ s
  · split
    · exact hI.of_ledger (ptraceSyscall_ledger _) s
    · split
      · exact .set (fun hs => hI.same _ _ hs rfl)
      · split
        · exact hI.of_ledger (ptraceSyscall_ledger _) s
        · exact Maintains.pure _ s

theorem dispatchExit_lasts : Maintains I (dispatchExit k p) := by
  refine fun s => .get_bind (.set_bind (fun hs => hI.onThreadExit hs p _) ?_)
  refine .bind .get fun v => ?_
  split
  · exact .bind (.modify fun s hs => hI.same _ _ hs rfl) fun _ => scheduleNext_lasts hI
  · exact .pure _

theorem dispatch_lasts (status : WaitStatus) : Maintains I (dispatch k status) := by
  have next {x : SupM Unit} (hx : Maintains I x) :
      Maintains I (do x; pure Flow.next : SupM Flow) := .bind hx fun _ => .pure _
  have death (p : Pid) (event : String) (note code : Int) : Maintains I (do
      if p = (← get).pid then
        modify (·.traceLifecycle event note)
        pure (Flow.exit code)
      else
        dispatchExit k p
        pure Flow.next : SupM Flow) := by
    refine .bind .get fun s => ?_
    split
    · exact .bind (.modify fun s hs => hI.note s _ _ hs) fun _ => .pure _
    · exact next (dispatchExit_lasts hI)
  cases status with
  | ptraceSyscall p => exact next (dispatchSyscall_lasts hI)
  | ptraceEvent p sig event =>
    cases event with
    | clone => exact dispatchClone_lasts hI
    | fork => exact dispatchClone_lasts hI
    | vfork => exact dispatchClone_lasts hI
    | exit => exact next (hI.of_ledger resumeThread_ledger)
    | exec => exact next (hI.of_ledger resumeTask_ledger)
    | vforkDone => exact next (hI.of_ledger resumeTask_ledger)
    | seccomp => exact next (hI.of_ledger resumeTask_ledger)
    | stop => exact next (hI.of_ledger resumeTask_ledger)
  | stopped p sig => exact next (dispatchStopped_lasts hI sig)
  | exited p code => exact death p _ _ _
  | signaled p sig core => exact death p _ _ _
  | continued p => exact .pure _
  | stillAlive => exact .pure _

theorem pass_lasts (awaits : List Await) (status : WaitStatus) :
    Maintains I (pass k awaits status) := by
  cases awaits with
  | nil =>
    refine .bind (dispatch_lasts hI status) fun flow => ?_
    cases flow with
    | next => exact .bind (runTail_lasts hI) fun _ => .pure _
    | exit code => exact .pure _
    | await w => exact .pure _
  | cons w outer =>
    simp only [pass, awaitPass]
    split
    · refine .bind (.modify fun s hs => hI.same _ _ hs rfl) fun _ =>
        .bind (hI.of_ledger release_ledger) fun _ =>
          .bind (hI.of_ledger resumeTask_ledger) fun _ => ?_
      split
      · exact .bind (runTail_lasts hI) fun _ => .pure _
      · exact .pure _
    · refine .bind (dispatch_lasts hI status) fun flow => ?_
      cases flow with
      | next => exact .pure _
      | exit code => exact .pure _
      | await inner => exact .pure _

end

theorem Machine.step_trace (m : Machine) (r : Report) :
    m.sv.trace <+: (m.step r).sv.trace := by
  cases hOpen : m.result with
  | some result =>
    simp only [step, hOpen]
    exact List.prefix_rfl
  | none =>
    cases hStatus : r.status with
    | error e =>
      simp only [step, hOpen, handle, hStatus]
      exact List.prefix_rfl
    | ok status =>
      rw [step_sv hOpen hStatus]
      exact pass_lasts (lasts_records m.sv.trace) m.awaits status { m.sv with effects := [] }
        List.prefix_rfl

end Dtrun
