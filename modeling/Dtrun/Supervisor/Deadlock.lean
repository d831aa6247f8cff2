import Dtrun.Supervisor.Passes

/-! # Where a deadlock can come from

`Deadlock` is the error of `schedule_next` alone. It is called at a syscall exit, at the death of
the current thread and at the end of the loop of `run`; everything else fails with an error of the
kernel, if at all.
-/
namespace Dtrun
set_option autoImplicit false
open FiniteMap StateExcept Supervisor

variable {k : Answers} {p : Pid} {s t : Supervisor} {awaits : List Await}

/-- The errors that the kernel's answers lead to satisfy `P`. -/
structure Answers.Errors (k : Answers) (P : SuperviseError → Prop) : Prop where
  syscallInfo : ∀ p e, k.syscallInfo p = .error e → P (.ptrace e)
  getregs : ∀ p e, k.getregs p = .error e → P (.ptrace e)
  setregs : ∀ p e, k.setregs p = .error e → P (.ptrace e)
  syscall : ∀ p e, k.syscall p = .error e → P (.ptrace e)
  writeMem : ∀ p addr data e, k.writeMem p addr data = .error e → P (.io e)

/-- The errors that are not `schedule_next`'s own. -/
def SuperviseError.Foreign (e : SuperviseError) : Prop := e ≠ .deadlock

theorem Answers.errors_foreign (k : Answers) : k.Errors SuperviseError.Foreign where
  syscallInfo := by simp [SuperviseError.Foreign]
  getregs := by simp [SuperviseError.Foreign]
  setregs := by simp [SuperviseError.Foreign]
  syscall := by simp [SuperviseError.Foreign]
  writeMem := by simp [SuperviseError.Foreign]

section

variable {P : SuperviseError → Prop}

theorem ptraceResult_fails {α : Type} {x : Except Errno α}
    (h : ∀ e, x = .error e → P (.ptrace e)) : FailsWith P (ptraceResult x) := by
  cases x with
  | ok a => exact .pure a
  | error e => exact .throw (h e rfl)

theorem ptraceSyscall_fails (hk : k.Errors P) (sig : Option Signal) :
    FailsWith P (ptraceSyscall k p sig) :=
  .bind (ptraceResult_fails (hk.syscall p)) fun _ => .modify _

theorem ptraceSetregs_fails (hk : k.Errors P) (regs : Regs) :
    FailsWith P (ptraceSetregs k p regs) :=
  .bind (ptraceResult_fails (hk.setregs p)) fun _ => .modify _

theorem writeProcMem_fails (hk : k.Errors P) (addr : U64) (data : List Byte) :
    FailsWith P (writeProcMem k p addr data) := by
  have hWrite := hk.writeMem p addr data
  simp only [writeProcMem]
  cases hAnswer : k.writeMem p addr data with
  | ok n => exact .modify _
  | error e => exact .throw (hWrite e hAnswer)

theorem resumeThread_fails (hk : k.Errors P) : FailsWith P (resumeThread k p) :=
  .bind .get fun _ => .bind (.set _) fun _ => ptraceSyscall_fails hk _

theorem resumeCurrent_fails (hk : k.Errors P) : FailsWith P (resumeCurrent k p) := by
  refine .bind .get fun s => ?_
  split
  · exact resumeThread_fails hk
  · exact .pure _

theorem resumeTask_fails (hk : k.Errors P) : FailsWith P (resumeTask k p) := by
  refine .bind .get fun s => ?_
  split
  · exact resumeCurrent_fails hk
  · exact resumeThread_fails hk

theorem release_fails (hk : k.Errors P) : FailsWith P (release k p) := by
  refine .bind .get fun s => ?_
  split
  · exact .modify _
  · exact resumeThread_fails hk

theorem skipSyscall_fails (hk : k.Errors P) (syscall : Int) (retval : U64) :
    FailsWith P (skipSyscall k p syscall retval) :=
  .bind (ptraceResult_fails (hk.getregs p)) fun _ =>
    .bind (ptraceSetregs_fails hk _) fun _ => .modify _

theorem registerThread_fails (hk : k.Errors P) (info : CloneInfo) :
    FailsWith P (registerThread k p info) := by
  refine .bind .get fun s => ?_
  split
  · exact .pure _
  · refine .bind (.set _) fun _ => ?_
    split
    · exact .bind (.modify _) fun _ => .bind (release_fails hk) fun _ => .modify _
    · exact .bind (.modify _) fun _ => .modify _

theorem interceptGetrandom_fails (hk : k.Errors P) (regs : Regs) :
    FailsWith P (interceptGetrandom k p regs) := by
  refine .bind .get fun s => .bind (.set _) fun _ => ?_
  split
  · exact .bind (writeProcMem_fails hk _ _) fun _ =>
      .bind (skipSyscall_fails hk _ _) fun _ => .modify _
  · exact .bind (skipSyscall_fails hk _ _) fun _ => .modify _

theorem interceptClockGettime_fails (hk : k.Errors P) (regs : Regs) :
    FailsWith P (interceptClockGettime k p regs) :=
  .bind .get fun _ => .bind (.set _) fun _ => .bind (writeProcMem_fails hk _ _) fun _ =>
    .bind (skipSyscall_fails hk _ _) fun _ => .modify _

theorem interceptGettimeofday_fails (hk : k.Errors P) (regs : Regs) :
    FailsWith P (interceptGettimeofday k p regs) :=
  .bind .get fun _ => .bind (.set _) fun _ => .bind (writeProcMem_fails hk _ _) fun _ =>
    .bind (skipSyscall_fails hk _ _) fun _ => .modify _

theorem interceptFutex_fails (hk : k.Errors P) (regs : Regs) :
    FailsWith P (interceptFutex k p regs) := by
  have pass (name : String) : FailsWith P
      (do modify (·.traceFutex p name "pass"); pure false : SupM Bool) :=
    .bind (.modify _) fun _ => .pure _
  refine .bind .get fun s => ?_
  split
  · exact pass _
  · split
    · split
      · exact .bind (skipSyscall_fails hk _ _) fun _ => .bind (.modify _) fun _ => .pure _
      · exact pass _
    · split
      · exact .bind (.set _) fun _ => .bind (skipSyscall_fails hk _ _) fun _ =>
          .bind (.modify _) fun _ => .pure _
      · split
        · split
          · exact pass _
          · exact .bind (.set _) fun _ => .bind (skipSyscall_fails hk _ _) fun _ =>
              .bind (.modify _) fun _ => .pure _
        · exact pass _

theorem onSyscallEntry_fails (hk : k.Errors P) : FailsWith P (onSyscallEntry k p) := by
  refine .bind (ptraceResult_fails (hk.getregs p)) fun regs => ?_
  dsimp only
  split
  · exact .bind (interceptGetrandom_fails hk regs) fun _ => .pure _
  · split
    · exact .bind (interceptClockGettime_fails hk regs) fun _ => .pure _
    · split
      · exact .bind (interceptGettimeofday_fails hk regs) fun _ => .pure _
      · split
        · exact interceptFutex_fails hk regs
        · split
          · exact .bind (.modify _) fun _ => .pure _
          · split
            · exact .bind (.modify _) fun _ => .bind (.modify _) fun _ => .pure _
            · exact .bind (.modify _) fun _ => .pure _

theorem onSyscallExit_fails (hk : k.Errors P) : FailsWith P (onSyscallExit k p) := by
  refine .bind .get fun s => .bind (.set _) fun _ => ?_
  cases s.pending.get p with
  | none => exact .pure _
  | some inject =>
    exact .bind (ptraceResult_fails (hk.getregs p)) fun _ =>
      .bind (ptraceSetregs_fails hk _) fun _ => .modify _

theorem dispatchClone_fails (hk : k.Errors P)
    (hChild : ∀ e, k.getevent p = .error e → P (.ptrace e)) : FailsWith P (dispatchClone k p) := by
  refine .bind (ptraceResult_fails hChild) fun child => .bind .get fun s => .bind (.set _) fun _ =>
    .bind (registerThread_fails hk _) fun _ => .bind .get fun s' => ?_
  split
  · exact .pure _
  · exact .bind (resumeTask_fails hk) fun _ => .pure _

theorem dispatchStopped_fails (hk : k.Errors P) (sig : Signal) :
    FailsWith P (dispatchStopped k p sig) := by
  have deliver : FailsWith P (ptraceSyscall k p (some sig)) := ptraceSyscall_fails hk _
  refine .bind .get fun s => ?_
  split
  · split
    · exact resumeThread_fails hk
    · split
      · exact .bind (.set _) fun _ => release_fails hk
      · split
        · exact .set _
        · exact .pure _
  · split
    · exact deliver
    · split
      · exact .set _
      · split
        · exact deliver
        · exact .pure _

end

/-- The state in which a dispatch looks for the next thread, where it does. -/
inductive Searches (s : Supervisor) : WaitStatus → Supervisor → Prop
  | yield {p : Pid} {v : Supervisor} (hScheduled : s.isScheduled p = true)
      (hCurrent : v.current = some p) (hLeft : Quiet s v) :
      Searches s (.ptraceSyscall p) (({ v with current := none } : Supervisor).enqueue p)
  | pick {p : Pid} {v : Supervisor} (hScheduled : s.isScheduled p = true)
      (hCurrent : v.current ≠ some p) (hLeft : Quiet s v) : Searches s (.ptraceSyscall p) v
  | died {status : WaitStatus} {p : Pid} (hDeath : status.death = some p)
      (hCurrent : s.current = some p) :
      Searches s status { s.onThreadExit p true with current := none }

theorem yieldCurrent_deadlock (h : yieldCurrent k p s = .error .deadlock t) :
    (s.current = some p ∧
        scheduleNext k (({ s with current := none } : Supervisor).enqueue p) =
          .error .deadlock t) ∨
      (s.current ≠ some p ∧ scheduleNext k s = .error .deadlock t) := by
  simp only [yieldCurrent, bind_error_iff, modify_apply] at h
  obtain h | ⟨_, _, ⟨⟩, h⟩ := h
  · cases h
  · split at h
    · rename_i hCurrent
      exact .inl ⟨hCurrent, h⟩
    · rename_i hCurrent
      exact .inr ⟨hCurrent, h⟩

theorem dispatchSyscall_deadlock (h : dispatchSyscall k p s = .error .deadlock t) :
    ∃ v, Searches s (.ptraceSyscall p) v ∧ scheduleNext k v = .error .deadlock t := by
  simp only [dispatchSyscall, bind_error_iff, ptraceResult_ok, get_apply] at h
  obtain h | ⟨op, _, ⟨_, rfl⟩, h | ⟨_, _, ⟨⟩, h⟩⟩ := h
  · exact absurd rfl (ptraceResult_fails (k.errors_foreign.syscallInfo p) _ _ _ h)
  · cases h
  split at h
  · cases op with
    | entry =>
      have hForeign : FailsWith SuperviseError.Foreign
          (do discard <| onSyscallEntry k p; resumeThread k p) :=
        .bind (.discard (onSyscallEntry_fails k.errors_foreign)) fun _ =>
          resumeThread_fails k.errors_foreign
      exact absurd rfl (hForeign _ _ _ h)
    | exit =>
      have hForeign : FailsWith SuperviseError.Foreign
          (do onSyscallExit k p; resumeThread k p) :=
        .bind (onSyscallExit_fails k.errors_foreign) fun _ => resumeThread_fails k.errors_foreign
      exact absurd rfl (hForeign _ _ _ h)
    | none => exact absurd rfl (resumeThread_fails k.errors_foreign _ _ _ h)
    | seccomp => exact absurd rfl (resumeThread_fails k.errors_foreign _ _ _ h)
  · rename_i hYes
    simp only [not_not] at hYes
    cases op with
    | entry =>
      simp only [bind_error_iff] at h
      obtain h | ⟨b, v, _, h⟩ := h
      · exact absurd rfl (onSyscallEntry_fails k.errors_foreign _ _ _ h)
      · cases b with
        | true => cases h
        | false => exact absurd rfl (resumeCurrent_fails k.errors_foreign _ _ _ h)
    | exit =>
      simp only [bind_error_iff] at h
      obtain h | ⟨_, v, hExit, h⟩ := h
      · exact absurd rfl (onSyscallExit_fails k.errors_foreign _ _ _ h)
      · have hLeft := onSyscallExit_quiet hExit
        rcases yieldCurrent_deadlock h with ⟨hCurrent, h⟩ | ⟨hCurrent, h⟩
        · exact ⟨_, .yield hYes hCurrent hLeft, h⟩
        · exact ⟨_, .pick hYes hCurrent hLeft, h⟩
    | none => exact absurd rfl (resumeCurrent_fails k.errors_foreign _ _ _ h)
    | seccomp => exact absurd rfl (resumeCurrent_fails k.errors_foreign _ _ _ h)

theorem dispatchExit_deadlock (h : dispatchExit k p s = .error .deadlock t) :
    s.current = some p ∧ s.groupExiting = false ∧
      scheduleNext k { s.onThreadExit p true with current := none } = .error .deadlock t := by
  simp only [dispatchExit, bind_error_iff, get_apply, set_apply] at h
  obtain h | ⟨_, _, ⟨⟩, h | ⟨_, _, ⟨⟩, h | ⟨_, _, ⟨⟩, h⟩⟩⟩ := h
  · cases h
  · cases h
  · cases h
  split at h
  · rename_i hLast
    obtain ⟨hCurrent, hAlive⟩ := hLast
    simp only [decide_eq_true_eq] at hCurrent
    rw [onThreadExit_frame] at hAlive
    simp only [bind_error_iff, modify_apply] at h
    obtain h | ⟨_, _, ⟨⟩, h⟩ := h
    · cases h
    · refine ⟨hCurrent, by simpa using hAlive, ?_⟩
      simpa [hCurrent] using h
  · cases h

theorem dispatch_deadlock_death {status : WaitStatus} (hDeath : status.death = some p)
    (h : dispatch k status s = .error .deadlock t) :
    p ≠ s.pid ∧ s.current = some p ∧ s.groupExiting = false ∧
      scheduleNext k { s.onThreadExit p true with current := none } = .error .deadlock t := by
  have death {record : Supervisor → Supervisor} {code : Int}
      (h : (do
        if p = (← get).pid then
          modify record
          pure (Flow.exit code)
        else
          dispatchExit k p
          pure Flow.next : SupM Flow) s = .error .deadlock t) :
      p ≠ s.pid ∧ dispatchExit k p s = .error .deadlock t := by
    rcases bind_error_iff.mp h with h | ⟨_, _, ⟨⟩, h⟩
    · cases h
    · split at h
      · cases h
      · rename_i hOther
        rcases bind_error_iff.mp h with h | ⟨_, _, _, h⟩
        · exact ⟨hOther, h⟩
        · cases h
  have hLeft : p ≠ s.pid ∧ dispatchExit k p s = .error .deadlock t := by
    cases status with
    | exited q code =>
      cases hDeath
      exact death h
    | signaled q sig core =>
      cases hDeath
      exact death h
    | _ => cases hDeath
  exact ⟨hLeft.1, dispatchExit_deadlock hLeft.2⟩

theorem dispatch_deadlock {status : WaitStatus} (h : dispatch k status s = .error .deadlock t) :
    ∃ v, Searches s status v ∧ scheduleNext k v = .error .deadlock t := by
  have seq {α β : Type} {x : SupM α} {b : β}
      (h : (x >>= fun _ => pure b) s = .error .deadlock t) : x s = .error .deadlock t := by
    rcases bind_error_iff.mp h with h | ⟨_, _, _, h⟩
    · exact h
    · cases h
  have death {p : Pid} (hDeath : status.death = some p) :
      ∃ v, Searches s status v ∧ scheduleNext k v = .error .deadlock t := by
    obtain ⟨_, hCurrent, _, hNext⟩ := dispatch_deadlock_death hDeath h
    exact ⟨_, .died hDeath hCurrent, hNext⟩
  cases status with
  | ptraceSyscall p => exact dispatchSyscall_deadlock (seq h)
  | ptraceEvent p sig event =>
    have hClone : FailsWith SuperviseError.Foreign (dispatchClone k p) :=
      dispatchClone_fails k.errors_foreign (by simp [SuperviseError.Foreign])
    cases event with
    | clone => exact absurd rfl (hClone _ _ _ h)
    | fork => exact absurd rfl (hClone _ _ _ h)
    | vfork => exact absurd rfl (hClone _ _ _ h)
    | exit => exact absurd rfl (resumeThread_fails k.errors_foreign _ _ _ (seq h))
    | exec => exact absurd rfl (resumeTask_fails k.errors_foreign _ _ _ (seq h))
    | vforkDone => exact absurd rfl (resumeTask_fails k.errors_foreign _ _ _ (seq h))
    | seccomp => exact absurd rfl (resumeTask_fails k.errors_foreign _ _ _ (seq h))
    | stop => exact absurd rfl (resumeTask_fails k.errors_foreign _ _ _ (seq h))
  | stopped p sig => exact absurd rfl (dispatchStopped_fails k.errors_foreign sig _ _ _ (seq h))
  | exited p code => exact death rfl
  | signaled p sig core => exact death rfl
  | continued p => cases h
  | stillAlive => cases h

/-- Where a pass of the loops fails with `Deadlock`. -/
theorem pass_deadlock {status : WaitStatus} (h : pass k awaits status s = .error .deadlock t) :
    ∃ v, scheduleNext k v = .error .deadlock t ∧
      ((Searches s status v ∧ dispatch k status s = .error .deadlock t) ∨
        (awaits = [] ∧ dispatch k status s = .ok .next v ∧ v.current = none) ∨
        ∃ w v₀, awaits = [w] ∧ status = .stopped w.child .SIGSTOP ∧
          release k w.child { s with pendingStart := s.pendingStart.erase w.child } = .ok () v₀ ∧
          resumeTask k w.parent v₀ = .ok () v ∧ v.current = none) := by
  have tail {v : Supervisor} (h : runTail k v = .error .deadlock t) :
      v.current = none ∧ scheduleNext k v = .error .deadlock t := by
    simp only [runTail, bind_error_iff, get_apply] at h
    obtain h | ⟨_, _, ⟨⟩, h⟩ := h
    · cases h
    · split at h
      · rename_i hFree
        exact ⟨hFree, h⟩
      · cases h
  have seq {α : Type} {x : SupM Unit} {v : Supervisor} {b : α}
      (h : (x >>= fun _ => pure b) v = .error .deadlock t) : x v = .error .deadlock t := by
    rcases bind_error_iff.mp h with h | ⟨_, _, _, h⟩
    · exact h
    · cases h
  cases awaits with
  | nil =>
    simp only [pass, runPass, bind_error_iff] at h
    obtain h | ⟨flow, v, hDispatch, h⟩ := h
    · obtain ⟨v, hSearches, hNext⟩ := dispatch_deadlock h
      exact ⟨v, hNext, .inl ⟨hSearches, h⟩⟩
    · cases flow with
      | next =>
        obtain ⟨hFree, hNext⟩ := tail (seq h)
        exact ⟨v, hNext, .inr (.inl ⟨rfl, hDispatch, hFree⟩)⟩
      | exit code => cases h
      | await w => cases h
  | cons w outer =>
    simp only [pass, awaitPass] at h
    split at h
    · rename_i hStop
      simp only [bind_error_iff, modify_apply] at h
      obtain h | ⟨_, _, ⟨⟩, h | ⟨_, v₀, hRelease, h | ⟨_, v, hResume, h⟩⟩⟩ := h
      · cases h
      · exact absurd rfl (release_fails k.errors_foreign _ _ _ h)
      · exact absurd rfl (resumeTask_fails k.errors_foreign _ _ _ h)
      · split at h
        · rename_i hLast
          obtain ⟨hFree, hNext⟩ := tail (seq h)
          exact ⟨v, hNext, .inr (.inr ⟨w, v₀, by rw [hLast], hStop, hRelease, hResume, hFree⟩)⟩
        · cases h
    · simp only [bind_error_iff] at h
      obtain h | ⟨flow, v, _, h⟩ := h
      · obtain ⟨v, hSearches, hNext⟩ := dispatch_deadlock h
        exact ⟨v, hNext, .inl ⟨hSearches, h⟩⟩
      · cases flow with
        | next => cases h
        | exit code => cases h
        | await inner => cases h

theorem Machine.step_deadlock {m : Machine} {r : Report} (hOpen : m.result = none)
    (h : (m.step r).result = some (.error .deadlock)) :
    ∃ status, r.status = .ok status ∧
      pass r.answers m.awaits status { m.sv with effects := [] } =
        .error .deadlock (m.step r).sv := by
  simp only [Machine.step, hOpen] at h ⊢
  cases hHandle : handle m.awaits r { m.sv with effects := [] } with
  | ok turn v =>
    cases turn with
    | wait awaits => simp [hHandle, Machine.settle] at h
    | done code => simp [hHandle, Machine.settle] at h
  | error e v =>
    simp only [hHandle, Machine.settle, Option.some.injEq, Except.error.injEq] at h
    subst h
    exact handle_pass hHandle fun _ _ hEq => by cases hEq

theorem Machine.start_deadlock {pid : Pid} {seed : U64}
    (h : (start pid seed k).result = some (.error .deadlock)) :
    scheduleNext k (fresh pid seed) = .error .deadlock (start pid seed k).sv := by
  simp only [start] at h ⊢
  cases hBoot : boot k (fresh pid seed) with
  | ok turn v =>
    cases turn with
    | wait awaits => simp [hBoot, settle] at h
    | done code => simp [hBoot, settle] at h
  | error e v =>
    simp only [hBoot, settle, Option.some.injEq, Except.error.injEq] at h
    subst h
    simp only [boot, bind_error_iff] at hBoot
    obtain hNext | ⟨_, _, _, hNext⟩ := hBoot
    · exact hNext
    · cases hNext

end Dtrun
