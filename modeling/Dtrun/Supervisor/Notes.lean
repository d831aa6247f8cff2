import Dtrun.Supervisor.Records

/-! # What a view of the trace follows

A view that looks at the records and their count, and not at records of other events than an exit,
is changed by the exit of a thread only. Every handler but one keeps such a view, also where it
fails.
-/
namespace Dtrun
set_option autoImplicit false
open FiniteMap StateExcept Transition Supervisor

variable {k : Answers} {s : Supervisor} {p : Pid} {γ : Type} {f : Supervisor → γ}

structure Follows (f : Supervisor → γ) : Prop where
  same : ∀ s t : Supervisor, t.trace = s.trace → t.seq = s.seq → f t = f s
  note : ∀ (s : Supervisor) (event : String) (detail : List (String × Value)),
    event ≠ "thread_exit" → f (s.traceJson event detail) = f s

/-- A view that need not leave out the bytes handed out either. -/
structure Overlooks (f : Supervisor → γ) : Prop where
  same : ∀ s t : Supervisor, t.trace = s.trace → t.seq = s.seq → f t = f s
  note : ∀ (s : Supervisor) (event : String) (detail : List (String × Value)),
    event ≠ "thread_exit" → event ≠ "getrandom" → f (s.traceJson event detail) = f s
  traceSyscall : ∀ (s : Supervisor) (nr : Int) (kind : String), f (s.traceSyscall nr kind) = f s

theorem Follows.overlooks (hf : Follows f) : Overlooks f where
  same := hf.same
  note := fun s event detail hEvent _ => hf.note s event detail hEvent
  traceSyscall := fun s nr kind => by
    refine hf.note s _ _ fun hName => syscallName_plain nr ?_
    rw [hName]
    decide

namespace Overlooks

theorem of_ledger {α : Type} {x : SupM α} (hf : Overlooks f) (h : Keeps Supervisor.ledger x) :
    Keeps f x :=
  fun s => hf.same _ _ (congrArg Ledger.trace (h s)) (congrArg Ledger.seq (h s))

theorem traceFutex (hf : Overlooks f) (s : Supervisor) (p : Pid) (op kind : String) :
    f (s.traceFutex p op kind) = f s := hf.note s "futex" _ (by decide) (by decide)

theorem scheduled (hf : Overlooks f) (s : Supervisor) (p : Pid) (thread : Thread) :
    f (s.scheduled p thread) = f s := by
  simp only [Supervisor.scheduled]
  split
  · refine Eq.trans ?_ (hf.note s "schedule"
      [("from", vtidOf s.lastVtid), ("to", .num thread.vtid)] (by decide) (by decide))
    exact hf.same _ _ rfl rfl
  · exact hf.same _ _ rfl rfl

end Overlooks

section

variable (hf : Overlooks f)
include hf

theorem runThread_overlooks (thread : Thread) : Keeps f (runThread k p thread) :=
  fun s => .get_bind (.set_bind (hf.scheduled s p thread)
    (hf.of_ledger resumeThread_ledger))

theorem scheduleLoop_overlooks (queue : List Pid) :
    Keeps f (scheduleLoop k queue) := by
  induction queue with
  | nil =>
    refine .bind .get fun s => ?_
    split
    · exact .pure _
    · exact .throw _
  | cons tid rest ih =>
    refine .bind (.modify fun _ => hf.same _ _ rfl rfl) fun _ => .bind .get fun s => ?_
    split
    · exact ih
    · split
      · exact ih
      · exact runThread_overlooks hf _

theorem scheduleNext_overlooks : Keeps f (scheduleNext k) :=
  .bind .get fun s => scheduleLoop_overlooks hf s.runnable

theorem runTail_overlooks : Keeps f (runTail k) := by
  refine .bind .get fun s => ?_
  split
  · exact scheduleNext_overlooks hf
  · exact .pure _

theorem yieldCurrent_overlooks : Keeps f (yieldCurrent k p) := by
  refine .bind (.modify fun s => ?_) fun _ => scheduleNext_overlooks hf
  split
  · exact hf.same _ _ rfl rfl
  · rfl

theorem registerThread_overlooks (info : CloneInfo) :
    Keeps f (registerThread k p info) := by
  have created (detail : List (String × Value)) : Keeps f
      (modify fun s : Supervisor => s.traceJson "thread_create" detail : SupM Unit) :=
    .modify fun s => hf.note s _ detail (by decide) (by decide)
  refine fun s => .get_bind ?_
  split
  · exact Keeps.pure _ s
  · refine .set_bind (hf.same _ _ rfl rfl) ?_
    split
    · exact .bind (.modify fun _ => hf.same _ _ rfl rfl) fun _ =>
        .bind (hf.of_ledger release_ledger) fun _ => created _
    · exact .bind (.modify fun _ => hf.same _ _ rfl rfl) fun _ => created _

theorem virtualClock_overlooks (s : Supervisor) (clk : U32) :
    f (s.virtualClock clk).2 = f s := by
  simp only [virtualClock]
  split
  · rfl
  · split
    · exact hf.same _ _ rfl rfl
    · rfl

theorem interceptClockGettime_overlooks (regs : Regs) :
    Keeps f (interceptClockGettime k p regs) :=
  fun s => .get_bind (.set_bind (virtualClock_overlooks hf s _)
    (.bind (hf.of_ledger (writeProcMem_ledger _ _)) fun _ =>
      .bind (hf.of_ledger (skipSyscall_ledger _ _)) fun _ =>
        .modify fun s => hf.note s _ _ (by decide) (by decide)))

theorem interceptGettimeofday_overlooks (regs : Regs) :
    Keeps f (interceptGettimeofday k p regs) :=
  fun s => .get_bind (.set_bind (virtualClock_overlooks hf s CLOCK_REALTIME)
    (.bind (hf.of_ledger (writeProcMem_ledger _ _)) fun _ =>
      .bind (hf.of_ledger (skipSyscall_ledger _ _)) fun _ =>
        .modify fun s => hf.note s _ _ (by decide) (by decide)))

theorem wake_overlooks (s : Supervisor) (addr val : U64) : f (s.wake addr val).2 = f s := by
  rw [wake_frame]
  exact hf.same _ _ rfl rfl

theorem interceptFutex_overlooks (regs : Regs) :
    Keeps f (interceptFutex k p regs) := by
  have note (op kind : String) (b : Bool) : Keeps f
      (do modify (·.traceFutex p op kind); pure b : SupM Bool) :=
    .bind (.modify fun s => hf.traceFutex s p op kind) fun _ => .pure _
  have skip (retval : U64) (op kind : String) : Keeps f (do
      skipSyscall k p SYS_futex retval
      modify (·.traceFutex p op kind)
      pure false : SupM Bool) :=
    .bind (hf.of_ledger (skipSyscall_ledger _ _)) fun _ => note op kind false
  refine fun s => .get_bind ?_
  split
  · exact note _ _ _ s
  · split
    · split
      · exact Keeps.bind (hf.of_ledger (skipSyscall_ledger _ _)) (fun _ =>
          .bind (.modify fun s => (hf.traceFutex (s.block p _) p _ _).trans (hf.same _ _ rfl rfl)) fun _ => .pure _) s
      · exact note _ _ _ s
    · split
      · exact .set_bind (wake_overlooks hf s _ _) (skip _ _ _)
      · split
        · split
          · exact note _ _ _ s
          · exact .set_bind ((wake_overlooks hf _ _ _).trans (wake_overlooks hf s _ _)) (skip _ _ _)
        · exact note _ _ _ s

theorem onSyscallEntry_overlooks (s : Supervisor) : f (final (onSyscallEntry k p s)) =
    match k.getregs p with
    | .ok regs => if regs.origRax.toInt = SYS_getrandom then
        f (final (interceptGetrandom k p regs s)) else f s
    | .error _ => f s := by
  have note (nr : Int) {g : Supervisor → Supervisor} (hg : ∀ s, f (g s) = f s) :
      Keeps f (do modify fun s => (g s).traceSyscall nr "pass"; pure false :
        SupM Bool) :=
    .bind (.modify fun s => (hf.traceSyscall (g s) nr "pass").trans (hg s)) fun _ => .pure _
  cases hRegs : k.getregs p with
  | error e =>
    rw [onSyscallEntry, hRegs]
    rfl
  | ok regs =>
    rw [onSyscallEntry, bind_of_ok (ptraceResult_ok.mpr ⟨hRegs, rfl⟩)]
    simp only
    split
    · exact Keeps.final_bind (fun _ => .pure _) s
    · split
      · exact Keeps.bind (interceptClockGettime_overlooks hf regs) (fun _ => .pure _) s
      · split
        · exact Keeps.bind (interceptGettimeofday_overlooks hf regs) (fun _ => .pure _) s
        · split
          · exact interceptFutex_overlooks hf regs s
          · split
            · exact note _ (g := fun s => { s with groupExiting := true })
                (fun _ => hf.same _ _ rfl rfl) s
            · split
              · have hStash : Keeps f (stashClone k p regs.origRax.toInt regs) :=
                  .modify fun _ => hf.same _ _ rfl rfl
                exact Keeps.bind hStash (fun _ => note _ (g := id) fun _ => rfl) s
              · exact note _ (g := id) (fun _ => rfl) s

theorem onSyscallExit_overlooks : Keeps f (onSyscallExit k p) := by
  refine fun s => .get_bind (.set_bind (hf.same _ _ rfl rfl) ?_)
  cases s.pending.get p with
  | none => exact .pure _
  | some inject =>
    exact .bind (hf.of_ledger (ptraceResult_ledger _)) fun _ =>
      .bind (.bind (hf.of_ledger (ptraceResult_ledger _)) fun _ => .modify fun _ => hf.same _ _ rfl rfl)
        fun _ => .modify fun s => hf.traceSyscall s _ _

theorem dispatchSyscall_overlooks (s : Supervisor) : f (final (dispatchSyscall k p s)) =
    if k.syscallInfo p = .ok .entry then f (final (onSyscallEntry k p s)) else f s := by
  have hThread : Keeps f (resumeThread k p) := hf.of_ledger resumeThread_ledger
  have hCurrent : Keeps f (resumeCurrent k p) := hf.of_ledger resumeCurrent_ledger
  have tail (b : Bool) : Keeps f (if b then modify fun sv => { sv with current := none }
      else resumeCurrent k p : SupM Unit) := by
    cases b with
    | true => exact .modify fun _ => hf.same _ _ rfl rfl
    | false => exact hCurrent
  cases hOp : k.syscallInfo p with
  | error e =>
    rw [dispatchSyscall, hOp]
    rfl
  | ok op =>
    rw [dispatchSyscall, hOp]
    change f (final ((if ¬ s.isScheduled p then _ else _ : SupM Unit) s)) = _
    split
    · cases op with
      | entry =>
        refine (Keeps.final_bind (fun _ => hThread) s).trans ?_
        rw [final_discard]
        rfl
      | exit => exact Keeps.bind (onSyscallExit_overlooks hf) (fun _ => hThread) s
      | none => exact hThread s
      | seccomp => exact hThread s
    · cases op with
      | entry => exact Keeps.final_bind tail s
      | exit =>
        exact Keeps.bind (onSyscallExit_overlooks hf) (fun _ => yieldCurrent_overlooks hf) s
      | none => exact hCurrent s
      | seccomp => exact hCurrent s

theorem dispatchClone_overlooks : Keeps f (dispatchClone k p) := by
  refine .bind (hf.of_ledger (ptraceResult_ledger _)) fun child =>
    fun s => .get_bind (.set_bind (hf.same _ _ rfl rfl) ?_)
  refine .bind (registerThread_overlooks hf _) fun _ => .bind .get fun v => ?_
  split
  · exact .pure _
  · exact .bind (hf.of_ledger resumeTask_ledger) fun _ => .pure _

theorem dispatchStopped_overlooks (sig : Signal) :
    Keeps f (dispatchStopped k p sig) := by
  have hDeliver : Keeps f (ptraceSyscall k p (some sig)) :=
    hf.of_ledger (ptraceSyscall_ledger _)
  refine fun s => .get_bind ?_
  split
  · split
    · exact hf.of_ledger resumeThread_ledger s
    · split
      · exact .set_bind (hf.same _ _ rfl rfl) (hf.of_ledger release_ledger)
      · split
        · exact .set (hf.same _ _ rfl rfl)
        · exact Keeps.pure _ s
  · split
    · exact hDeliver s
    · split
      · exact .set (hf.same _ _ rfl rfl)
      · split
        · exact hDeliver s
        · exact Keeps.pure _ s

/-! A view that does not look at exits either is changed by a call only. -/

variable (hExit : ∀ (s : Supervisor) (p : Pid) (record : Bool), f (s.onThreadExit p record) = f s)
include hExit

theorem dispatchExit_overlooks : Keeps f (dispatchExit k p) := by
  refine fun s => .get_bind (.set_bind (hExit s p _) (.bind .get fun v => ?_))
  split
  · exact .bind (.modify fun _ => hf.same _ _ rfl rfl) fun _ => scheduleNext_overlooks hf
  · exact .pure _

theorem dispatch_overlooks (status : WaitStatus) (s : Supervisor) :
    f (final (dispatch k status s)) = match status with
      | .ptraceSyscall p => f (final (dispatchSyscall k p s))
      | _ => f s := by
  have next {x : SupM Unit} (hx : Keeps f x) :
      Keeps f (do x; pure Flow.next : SupM Flow) := .bind hx fun _ => .pure _
  have death (p : Pid) (event : String) (hEvent : event ≠ "thread_exit" ∧ event ≠ "getrandom")
      (note code : Int) : Keeps f (do
        if p = (← get).pid then
          modify (·.traceLifecycle event note)
          pure (Flow.exit code)
        else
          dispatchExit k p
          pure Flow.next : SupM Flow) := by
    refine .bind .get fun s => ?_
    split
    · exact .bind (.modify fun s => hf.note s event _ hEvent.1 hEvent.2) fun _ => .pure _
    · exact next (dispatchExit_overlooks hf hExit)
  have hThread {p : Pid} : Keeps f (resumeThread k p) := hf.of_ledger resumeThread_ledger
  have hTask {p : Pid} : Keeps f (resumeTask k p) := hf.of_ledger resumeTask_ledger
  cases status with
  | ptraceSyscall p => exact Keeps.final_bind (fun _ => .pure _) s
  | ptraceEvent p sig event =>
    cases event with
    | clone => exact dispatchClone_overlooks hf s
    | fork => exact dispatchClone_overlooks hf s
    | vfork => exact dispatchClone_overlooks hf s
    | exit => exact next hThread s
    | exec => exact next hTask s
    | vforkDone => exact next hTask s
    | seccomp => exact next hTask s
    | stop => exact next hTask s
  | stopped p sig => exact next (dispatchStopped_overlooks hf sig) s
  | exited p code => exact death p "exit" (by decide) _ _ s
  | signaled p sig core => exact death p "signal" (by decide) _ _ s
  | continued p => rfl
  | stillAlive => rfl

theorem pass_overlooks (awaits : List Await) (status : WaitStatus) (s : Supervisor) :
    f (final (pass k awaits status s)) = match status with
      | .ptraceSyscall p => f (final (dispatchSyscall k p s))
      | _ => f s := by
  have tail (turn : Turn) : Keeps f (do runTail k; pure turn : SupM Turn) :=
    .bind (runTail_overlooks hf) fun _ => .pure _
  cases awaits with
  | nil =>
    refine (Keeps.final_bind (fun flow => ?_) s).trans (dispatch_overlooks hf hExit status s)
    cases flow with
    | next => exact tail _
    | exit code => exact .pure _
    | await w => exact .pure _
  | cons w outer =>
    simp only [pass, awaitPass]
    split
    · rename_i hStop
      subst hStop
      refine (Keeps.final_bind (fun _ => .bind (hf.of_ledger release_ledger) fun _ =>
        .bind (hf.of_ledger resumeTask_ledger) fun _ => ?_) s).trans (hf.same _ _ rfl rfl)
      split
      · exact tail _
      · exact .pure _
    · refine (Keeps.final_bind (fun flow => ?_) s).trans (dispatch_overlooks hf hExit status s)
      cases flow with
      | next => exact .pure _
      | exit code => exact .pure _
      | await inner => exact .pure _

end

theorem Follows.interceptGetrandom (hf : Follows f) (regs : Regs) :
    Keeps f (interceptGetrandom k p regs) := by
  have skip (n : U64) (detail : List (String × Value)) : Keeps f (do
      skipSyscall k p SYS_getrandom n
      modify (·.traceJson "getrandom" detail) : SupM Unit) :=
    .bind (hf.overlooks.of_ledger (skipSyscall_ledger _ _)) fun _ =>
      .modify fun s => hf.note s _ detail (by decide)
  refine fun s => .get_bind (.set_bind (hf.same _ _ rfl rfl) ?_)
  split
  · exact .bind (hf.overlooks.of_ledger (writeProcMem_ledger _ _)) fun _ => skip _ _
  · exact skip _ _

theorem Follows.dispatchSyscall (hf : Follows f) : Keeps f (dispatchSyscall k p) := by
  intro s
  rw [KeepsAt, dispatchSyscall_overlooks hf.overlooks]
  split
  · rw [onSyscallEntry_overlooks hf.overlooks]
    split
    · rename_i regs _
      split
      · exact hf.interceptGetrandom regs s
      · rfl
    · rfl
  · rfl

/-- The records are numbered from 1, and `seq` is the last number. -/
def Supervisor.Numbered (s : Supervisor) : Prop :=
  s.trace.map Record.seq = List.range' 1 s.seq

theorem numbered_traceJson (s : Supervisor) (event : String) (detail : List (String × Value)) :
    (s.traceJson event detail).Numbered = s.Numbered := by
  simp only [Numbered, traceJson, List.map_append, List.map_cons, List.map_nil, List.range'_concat]
  rw [Nat.one_mul, Nat.add_comm 1 s.seq, List.append_left_inj]

theorem numbered_follows : Follows Supervisor.Numbered where
  same := fun s t hTrace hSeq => by simp only [Numbered, hTrace, hSeq]
  note := fun s event detail _ => numbered_traceJson s event detail

theorem numbered_onThreadExit (s : Supervisor) (p : Pid) (record : Bool) :
    (s.onThreadExit p record).Numbered = s.Numbered := by
  cases hLookup : s.threads.get p with
  | none =>
    simp only [onThreadExit, hLookup]
    rfl
  | some thread =>
    simp only [onThreadExit, hLookup]
    rw [clearTidWake_frame]
    cases record with
    | true => exact numbered_traceJson _ "thread_exit" _
    | false => rfl

theorem pass_numbered (awaits : List Await) (status : WaitStatus) :
    Keeps Supervisor.Numbered (pass k awaits status) := by
  intro s
  rw [KeepsAt, pass_overlooks numbered_follows.overlooks numbered_onThreadExit]
  split
  · exact numbered_follows.dispatchSyscall s
  · rfl

/-- Whatever the kernel reports, the records are numbered in the order they are written. -/
theorem World.numbered {pid : Pid} {seed : U64} {ok : World → Label → Prop} {w : World}
    (h : (system pid seed).Reach ok w) : w.machine.sv.Numbered := by
  refine System.Reach.invariant (I := fun w => w.machine.sv.Numbered) ?_ ?_ h
  · rintro _ ⟨k, rfl⟩
    have hBoot : Keeps Supervisor.Numbered (boot k) :=
      .bind (scheduleNext_overlooks numbered_follows.overlooks) fun _ => .pure _
    change (Machine.settle [] (boot k (Machine.fresh pid seed))).sv.Numbered
    rw [Machine.settle_sv]
    exact (hBoot (Machine.fresh pid seed)).mpr rfl
  · intro w l w' _ hOld _ hStep
    cases l with
    | spawn p c thread vm => rwa [spawn_machine hStep]
    | exec p => rwa [exec_machine hStep]
    | report r =>
      obtain ⟨hRunning, _, hMachine, _⟩ := observe_eq_some hStep
      rw [hMachine, Machine.step, hRunning, Machine.settle_sv]
      simp only [handle]
      cases r.status with
      | error e => exact hOld
      | ok status => exact (pass_numbered w.machine.awaits status _).mpr hOld

end Dtrun
