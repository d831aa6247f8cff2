import Dtrun.Library.Equivariance
import Dtrun.Supervisor.Stashes

/-! # What the supervisor does not read

Stashed clone arguments are read by a clone event, under the pid of the task that reports it, and by
nothing else. Two states that differ in other stashed arguments are handled alike.
-/
namespace Dtrun
set_option autoImplicit false
open FiniteMap Equivariance StateExcept

def Supervisor.stash (s : Supervisor) (c : PidMap CloneInfo) : Supervisor :=
  { s with clonePending := c }

variable {k : Answers} {p : Pid} {s : Supervisor} {c : PidMap CloneInfo}

namespace Supervisor

theorem stash_wakeLoop (cap : Nat) (queue : List Pid) (woken : Nat) (s : Supervisor) :
    wakeLoop cap queue woken (s.stash c) = ((wakeLoop cap queue woken s).1,
      (wakeLoop cap queue woken s).2.1, (wakeLoop cap queue woken s).2.2.stash c) := by
  induction queue generalizing woken s with
  | nil => rfl
  | cons t rest ih =>
    have hBlocked : (s.stash c).blocked = s.blocked := rfl
    have hWoken : ({ s.stash c with blocked := s.blocked.erase t } : Supervisor).enqueue t =
        (({ s with blocked := s.blocked.erase t } : Supervisor).enqueue t).stash c := rfl
    simp only [wakeLoop, hBlocked, hWoken, ih]
    split
    · split
      · rfl
      · rfl
    · rfl

theorem stash_wake (s : Supervisor) (addr val : U64) :
    (s.stash c).wake addr val = ((s.wake addr val).1, (s.wake addr val).2.stash c) := by
  have hWaiting : (s.stash c).waiting = s.waiting := rfl
  have hErased : ({ s.stash c with waiting := s.waiting.erase addr } : Supervisor) =
      ({ s with waiting := s.waiting.erase addr } : Supervisor).stash c := rfl
  simp only [wake, hWaiting, hErased, stash_wakeLoop]
  split
  · rfl
  · cases s.waiting.get addr with
    | none => rfl
    | some queue =>
      simp only []
      split
      · rfl
      · rfl

theorem stash_clearTidWake (s : Supervisor) (t : Thread) :
    (s.stash c).clearTidWake t = (s.clearTidWake t).stash c := by
  simp only [clearTidWake, stash_wake]
  split
  · rfl
  · rfl

theorem stash_onThreadExit (s : Supervisor) (p : Pid) (record : Bool) :
    (s.stash c).onThreadExit p record = (s.onThreadExit p record).stash c := by
  have hThreads : (s.stash c).threads = s.threads := rfl
  have hErased : ({ s.stash c with threads := s.threads.erase p } : Supervisor) =
      ({ s with threads := s.threads.erase p } : Supervisor).stash c := rfl
  simp only [onThreadExit, hThreads, hErased, stash_clearTidWake]
  cases s.threads.get p with
  | none => rfl
  | some t =>
    cases record with
    | true => rfl
    | false => rfl

theorem stash_virtualClock (s : Supervisor) (clk : U32) :
    (s.stash c).virtualClock clk = ((s.virtualClock clk).1, (s.virtualClock clk).2.stash c) := by
  simp only [virtualClock]
  split
  · rfl
  · split
    · rfl
    · rfl

end Supervisor

open Supervisor

/-- Whatever is stashed, `x` does the same and leaves it there. -/
abbrev Ignores (c : PidMap CloneInfo) {α : Type} (x : SupM α) : Prop :=
  Commutes (Supervisor.stash · c) id x x

theorem ptraceResult_ignores {α : Type} (r : Except Errno α) : Ignores c (ptraceResult r) := by
  cases r with
  | ok a => exact .pure a
  | error e => exact .throw _

theorem ptraceSyscall_ignores (sig : Option Signal) : Ignores c (ptraceSyscall k p sig) :=
  .bind (ptraceResult_ignores _) fun _ => .modify fun _ => rfl

theorem ptraceSetregs_ignores (regs : Regs) : Ignores c (ptraceSetregs k p regs) :=
  .bind (ptraceResult_ignores _) fun _ => .modify fun _ => rfl

theorem writeProcMem_ignores (addr : U64) (data : List Byte) :
    Ignores c (writeProcMem k p addr data) := by
  rw [writeProcMem]
  cases k.writeMem p addr data with
  | ok n => exact .modify fun _ => rfl
  | error e => exact .throw _

theorem resumeThread_ignores : Ignores c (resumeThread k p) :=
  .get_bind fun _ => .set_bind rfl (ptraceSyscall_ignores _ _)

theorem resumeCurrent_ignores : Ignores c (resumeCurrent k p) := by
  refine .get_bind fun s => ?_
  change CommutesAt _ _ (if s.current = some p then _ else _)
    (if s.current = some p then _ else _) s
  split
  · exact resumeThread_ignores s
  · exact .pure _

theorem runThread_ignores (thread : Thread) : Ignores c (runThread k p thread) := by
  refine .get_bind fun s => .set_bind ?_ (resumeThread_ignores _)
  have hLast : (s.stash c).lastVtid = s.lastVtid := rfl
  rw [hLast]
  split
  · rfl
  · rfl

theorem scheduleLoop_ignores (queue : List Pid) : Ignores c (scheduleLoop k queue) := by
  induction queue with
  | nil =>
    refine .get_bind fun s => ?_
    change CommutesAt _ _ (if s.pendingStart.Nonempty ∨ s.anyConcurrent then _ else _)
      (if s.pendingStart.Nonempty ∨ s.anyConcurrent then _ else _) s
    split
    · exact .pure _
    · exact .throw _
  | cons tid rest ih =>
    refine .bind (g := id) (.modify fun _ => rfl) fun _ => .get_bind fun s => ?_
    have hThreads : (s.stash c).threads = s.threads := rfl
    have hBlocked : (s.stash c).blocked = s.blocked := rfl
    simp only [hThreads, hBlocked]
    cases s.threads.get tid with
    | none => exact ih s
    | some thread =>
      dsimp only
      split
      · exact ih s
      · exact runThread_ignores thread s

theorem scheduleNext_ignores : Ignores c (scheduleNext k) :=
  .get_bind fun s => scheduleLoop_ignores s.runnable s

theorem yieldCurrent_ignores : Ignores c (yieldCurrent k p) := by
  refine .bind (g := id) (.modify fun s => ?_) fun _ => scheduleNext_ignores
  have hCurrent : (s.stash c).current = s.current := rfl
  simp only [hCurrent]
  split
  · rfl
  · rfl

theorem release_ignores : Ignores c (release k p) := by
  refine .get_bind fun s => ?_
  change CommutesAt _ _ (if s.isScheduled p then _ else _) (if s.isScheduled p then _ else _) s
  split
  · exact .modify rfl
  · exact resumeThread_ignores s

theorem resumeTask_ignores : Ignores c (resumeTask k p) := by
  refine .get_bind fun s => ?_
  change CommutesAt _ _ (if s.isScheduled p then _ else _) (if s.isScheduled p then _ else _) s
  split
  · exact resumeCurrent_ignores s
  · exact resumeThread_ignores s

theorem registerThread_ignores (info : CloneInfo) : Ignores c (registerThread k p info) := by
  have record (vtid : Nat) (scheduled : Bool) : Ignores c (modify (·.traceJson "thread_create"
      [("tid", .num vtid), ("scheduled", .bool scheduled)])) := .modify fun _ => rfl
  refine .get_bind fun s => ?_
  have hKnown : (s.stash c).registered p = s.registered p := rfl
  have hSeen : (s.stash c).stoppedPending = s.stoppedPending := rfl
  simp only [hKnown, hSeen]
  split
  · exact .pure _
  · refine .set_bind rfl ?_
    split
    · exact .bind (g := id) (.modify rfl) fun _ t _ => .bind (g := id) (release_ignores t)
        fun _ t _ => record _ _ t
    · exact .bind (g := id) (.modify rfl) fun _ t _ => record _ _ t

theorem skipSyscall_ignores (syscall : Int) (retval : U64) :
    Ignores c (skipSyscall k p syscall retval) :=
  .bind (ptraceResult_ignores _) fun _ => .bind (ptraceSetregs_ignores _) fun _ =>
    .modify fun _ => rfl

theorem interceptGetrandom_ignores (regs : Regs) : Ignores c (interceptGetrandom k p regs) := by
  refine .get_bind fun s => .set_bind rfl ?_
  have hRng : (s.stash c).rng = s.rng := rfl
  simp only [hRng]
  split
  · exact .bind (writeProcMem_ignores _ _ _) fun _ t _ => .bind (skipSyscall_ignores _ _ t)
      fun _ _ _ => .modify rfl
  · exact .bind (skipSyscall_ignores _ _ _) fun _ _ _ => .modify rfl

theorem interceptClockGettime_ignores (regs : Regs) :
    Ignores c (interceptClockGettime k p regs) := by
  refine .get_bind fun s => ?_
  rw [stash_virtualClock]
  exact .set_bind rfl <| .bind (writeProcMem_ignores _ _ _) fun _ t _ =>
    .bind (skipSyscall_ignores _ _ t) fun _ _ _ => .modify rfl

theorem interceptGettimeofday_ignores (regs : Regs) :
    Ignores c (interceptGettimeofday k p regs) := by
  refine .get_bind fun s => ?_
  rw [stash_virtualClock]
  exact .set_bind rfl <| .bind (writeProcMem_ignores _ _ _) fun _ t _ =>
    .bind (skipSyscall_ignores _ _ t) fun _ _ _ => .modify rfl

theorem interceptFutex_ignores (regs : Regs) : Ignores c (interceptFutex k p regs) := by
  have note (op kind : String) : Ignores c (do modify (·.traceFutex p op kind); pure false) :=
    .bind (.modify fun _ => rfl) fun _ => .pure false
  refine .get_bind fun s => ?_
  have hScheduled : (s.stash c).isScheduled p = s.isScheduled p := rfl
  have hCount : (s.stash c).scheduledCount = s.scheduledCount := rfl
  simp only [hScheduled, hCount, stash_wake]
  split
  · exact note _ _ s
  split
  · split
    · exact .bind (skipSyscall_ignores _ _ s) fun _ _ _ => .bind (g := id) (.modify rfl)
        fun _ _ _ => .pure true
    · exact note _ _ s
  split
  · exact .set_bind rfl <| .bind (skipSyscall_ignores _ _ _) fun _ t _ => note _ _ t
  split
  · split
    · exact note _ _ s
    · exact .set_bind rfl <| .bind (skipSyscall_ignores _ _ _) fun _ t _ => note _ _ t
  · exact note _ _ s

theorem onSyscallExit_ignores : Ignores c (onSyscallExit k p) := by
  refine .get_bind fun s => .set_bind rfl ?_
  have hPending : (s.stash c).pending = s.pending := rfl
  simp only [hPending]
  cases s.pending.get p with
  | none => exact .pure _
  | some inject =>
    exact .bind (ptraceResult_ignores _ _) fun _ t _ => .bind (ptraceSetregs_ignores _ t)
      fun _ _ _ => .modify rfl

theorem dispatchStopped_ignores (sig : Signal) : Ignores c (dispatchStopped k p sig) := by
  refine .get_bind fun s => ?_
  have hCurrent : (s.stash c).current = s.current := rfl
  have hStart : (s.stash c).pendingStart = s.pendingStart := rfl
  have hKnown : (s.stash c).registered p = s.registered p := rfl
  have hScheduled : (s.stash c).isScheduled p = s.isScheduled p := rfl
  simp only [hCurrent, hStart, hKnown, hScheduled]
  split
  · split
    · exact resumeThread_ignores s
    split
    · exact .set_bind rfl (release_ignores _)
    split
    · exact .set rfl
    · exact .pure _
  · split
    · exact ptraceSyscall_ignores _ s
    split
    · exact .set rfl
    split
    · exact ptraceSyscall_ignores _ s
    · exact .pure _

theorem dispatchExit_ignores : Ignores c (dispatchExit k p) := by
  refine .get_bind fun s => ?_
  have hCurrent : (s.stash c).current = s.current := rfl
  have hFlag (v : Supervisor) : (v.stash c).groupExiting = v.groupExiting := rfl
  simp only [hCurrent, stash_onThreadExit]
  refine .set_bind rfl <| .get_bind ?_
  simp only [hFlag]
  split
  · exact .bind (g := id) (.modify rfl) fun _ t _ => scheduleNext_ignores t
  · exact .pure _

theorem runTail_ignores : Ignores c (runTail k) := by
  refine .get_bind fun s => ?_
  change CommutesAt _ _ (if s.current = none then _ else _) (if s.current = none then _ else _) s
  split
  · exact scheduleNext_ignores s
  · exact .pure _

/-- With other arguments stashed, `x` does the same, whatever it then leaves stashed. -/
def Carries (c : PidMap CloneInfo) {α : Type} (x : SupM α) (s : Supervisor) : Prop :=
  ∃ c', x (s.stash c) = changeResult (Supervisor.stash · c') id (x s)

namespace Carries

variable {α β : Type} {x : SupM α} {y : α → SupM β}

theorem of_ignores (h : Ignores c x) (s : Supervisor) : Carries c x s := ⟨c, h s⟩

theorem bind (hx : Carries c x s) (hy : ∀ a t c', x s = .ok a t → Carries c' (y a) t) :
    Carries c (x >>= y) s := by
  obtain ⟨c', hRun⟩ := hx
  cases hFirst : x s with
  | error e t =>
    refine ⟨c', ?_⟩
    rw [bind_apply, bind_apply, hRun, hFirst]
    rfl
  | ok a t =>
    obtain ⟨c'', hRest⟩ := hy a t c' hFirst
    refine ⟨c'', ?_⟩
    rw [bind_apply, bind_apply, hRun, hFirst]
    exact hRest

theorem get_bind {z : Supervisor → SupM β} (hSame : z (s.stash c) = z s) (hz : Carries c (z s) s) :
    Carries c (get >>= z) s := by
  obtain ⟨c', hRun⟩ := hz
  refine ⟨c', ?_⟩
  rw [bind_of_ok (get_apply _), bind_of_ok (get_apply _), hSame]
  exact hRun

theorem discard (hx : Carries c x s) : Carries c (discard x) s := by
  obtain ⟨c', hRun⟩ := hx
  refine ⟨c', ?_⟩
  rw [discard_apply, discard_apply, hRun]
  cases x s with
  | ok a t => rfl
  | error e t => rfl

end Carries

theorem stashClone_carries (nr : Int) (regs : Regs) : Carries c (stashClone k p nr regs) s :=
  ⟨c.insert p (cloneArgs k p nr regs), rfl⟩

theorem onSyscallEntry_carries : Carries c (onSyscallEntry k p) s := by
  refine .bind (.of_ignores (ptraceResult_ignores _) s) fun regs t c' _ => ?_
  dsimp only
  split
  · exact .of_ignores (.bind (interceptGetrandom_ignores regs) fun _ => .pure false) t
  split
  · exact .of_ignores (.bind (interceptClockGettime_ignores regs) fun _ => .pure false) t
  split
  · exact .of_ignores (.bind (interceptGettimeofday_ignores regs) fun _ => .pure false) t
  split
  · exact .of_ignores (interceptFutex_ignores regs) t
  split
  · exact .of_ignores (.bind (g := id) (.modify fun _ => rfl) fun _ => .pure false) t
  split
  · exact .bind (stashClone_carries _ regs) fun _ u _ _ =>
      .of_ignores (.bind (g := id) (.modify fun _ => rfl) fun _ => .pure false) u
  · exact .of_ignores (.bind (g := id) (.modify fun _ => rfl) fun _ => .pure false) t

theorem dispatchSyscall_carries : Carries c (dispatchSyscall k p) s := by
  have resume (t : Supervisor) (c' : PidMap CloneInfo) : Carries c' (resumeThread k p) t :=
    .of_ignores resumeThread_ignores t
  have current (t : Supervisor) (c' : PidMap CloneInfo) : Carries c' (resumeCurrent k p) t :=
    .of_ignores resumeCurrent_ignores t
  refine .bind (.of_ignores (ptraceResult_ignores _) s) fun op t c' _ => .get_bind rfl ?_
  split
  · cases op with
    | entry => exact .bind onSyscallEntry_carries.discard fun _ u d _ => resume u d
    | exit => exact .bind (.of_ignores onSyscallExit_ignores t) fun _ u d _ => resume u d
    | none => exact resume t c'
    | seccomp => exact resume t c'
  · cases op with
    | entry =>
      refine .bind onSyscallEntry_carries fun parked u d _ => ?_
      cases parked with
      | true => exact .of_ignores (.modify fun _ => rfl) u
      | false => exact current u d
    | exit =>
      exact .bind (.of_ignores onSyscallExit_ignores t) fun _ u d _ =>
        .of_ignores yieldCurrent_ignores u
    | none => exact current t c'
    | seccomp => exact current t c'

/-- A clone event takes what is stashed for its task. -/
theorem dispatchClone_carries (hRead : c.get p = s.clonePending.get p) :
    Carries c (dispatchClone k p) s := by
  rw [dispatchClone]
  cases k.getevent p with
  | error e => exact ⟨c, rfl⟩
  | ok child =>
    have rest (info : CloneInfo) : Ignores (c.erase p) (do
        registerThread k child info
        if child ∈ (← get).pendingStart then
          pure (.await ⟨child, p⟩)
        else
          resumeTask k p
          pure .next : SupM Flow) := by
      refine .bind (registerThread_ignores info) fun _ => .get_bind fun v => ?_
      change CommutesAt _ _ (if child ∈ v.pendingStart then _ else _)
        (if child ∈ v.pendingStart then _ else _) v
      split
      · exact .pure _
      · exact .bind (resumeTask_ignores v) fun _ _ _ => .pure _
    refine ⟨c.erase p, ?_⟩
    have hInfo : (s.stash c).clonePending.get p = s.clonePending.get p := hRead
    simp only [ptraceResult, pure_bind]
    rw [bind_of_ok (get_apply _), bind_of_ok (get_apply _), hInfo]
    exact rest _ { s with clonePending := s.clonePending.erase p }

theorem dispatch_carries {status : WaitStatus} (hRead : ∀ q sig event,
    status = .ptraceEvent q sig event → event.creates = true → c.get q = s.clonePending.get q) :
    Carries c (dispatch k status) s := by
  have next {x : SupM Unit} (hx : Carries c x s) :
      Carries c (do x; pure Flow.next : SupM Flow) s :=
    hx.bind fun _ t _ _ => .of_ignores (.pure _) t
  have death (p : Pid) (event : String) (note code : Int) : Carries c (do
      if p = (← get).pid then
        modify (·.traceLifecycle event note)
        pure (Flow.exit code)
      else
        dispatchExit k p
        pure Flow.next : SupM Flow) s := by
    refine .get_bind rfl ?_
    split
    · have recorded : Ignores c (modify (·.traceLifecycle event note) : SupM Unit) :=
        .modify fun _ => rfl
      exact .bind (.of_ignores recorded s) fun _ t _ _ => .of_ignores (.pure _) t
    · exact next (.of_ignores dispatchExit_ignores s)
  cases status with
  | ptraceSyscall p => exact next dispatchSyscall_carries
  | ptraceEvent p sig event =>
    cases event with
    | clone => exact dispatchClone_carries (hRead p sig .clone rfl rfl)
    | fork => exact dispatchClone_carries (hRead p sig .fork rfl rfl)
    | vfork => exact dispatchClone_carries (hRead p sig .vfork rfl rfl)
    | exit => exact next (.of_ignores resumeThread_ignores s)
    | exec => exact next (.of_ignores resumeTask_ignores s)
    | vforkDone => exact next (.of_ignores resumeTask_ignores s)
    | seccomp => exact next (.of_ignores resumeTask_ignores s)
    | stop => exact next (.of_ignores resumeTask_ignores s)
  | stopped p sig => exact next (.of_ignores (dispatchStopped_ignores sig) s)
  | exited p code => exact death p _ _ _
  | signaled p sig core => exact death p _ _ _
  | continued p => exact .of_ignores (.pure _) s
  | stillAlive => exact .of_ignores (.pure _) s

theorem pass_carries (awaits : List Await) {status : WaitStatus} (hRead : ∀ q sig event,
    status = .ptraceEvent q sig event → event.creates = true → c.get q = s.clonePending.get q) :
    Carries c (pass k awaits status) s := by
  have done (turn : Turn) (t : Supervisor) (c' : PidMap CloneInfo) :
      Carries c' (pure turn : SupM Turn) t := .of_ignores (.pure _) t
  have tail (awaits : List Await) (t : Supervisor) (c' : PidMap CloneInfo) : Carries c'
      (do runTail k; pure (Turn.wait awaits) : SupM Turn) t :=
    .of_ignores (.bind (h := id) runTail_ignores fun _ => .pure (Turn.wait awaits)) t
  cases awaits with
  | nil =>
    refine .bind (dispatch_carries hRead) fun flow t c' _ => ?_
    cases flow with
    | next => exact tail [] t c'
    | exit code => exact done _ t c'
    | await w => exact done _ t c'
  | cons w outer =>
    simp only [pass, awaitPass]
    split
    · have attached : Ignores c (modify fun sv =>
          { sv with pendingStart := sv.pendingStart.erase w.child } : SupM Unit) :=
        .modify fun _ => rfl
      refine .bind (.of_ignores attached s) fun _ t c' _ =>
        .bind (.of_ignores release_ignores t) fun _ u _ _ =>
          .bind (.of_ignores resumeTask_ignores u) fun _ v c'' _ => ?_
      split
      · exact tail _ v c''
      · exact done _ v c''
    · refine .bind (dispatch_carries hRead) fun flow t c' _ => ?_
      cases flow with
      | next => exact done _ t c'
      | exit code => exact done _ t c'
      | await inner => exact done _ t c'

end Dtrun
