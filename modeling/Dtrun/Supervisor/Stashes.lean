import Dtrun.Supervisor.OnePlace
import Dtrun.Supervisor.Spaces

/-! # The arguments stashed for a clone event

The entry of `clone` and `clone3` stashes the arguments under the pid of the caller, and the next
clone event of that pid takes them. Nothing else does: a call that creates nobody leaves its
arguments for whichever creation comes next, by the same task or by a later one of that pid, and
`fork` and `vfork` stash nothing of their own. An observer knows which call each task is in, and so
what its child is due.
-/
namespace Dtrun
set_option autoImplicit false
open FiniteMap StateExcept Transition Supervisor

variable {k : Answers} {p q : Pid} {s t : Supervisor} {status : WaitStatus}

/-- The arguments of the call in `regs`, if it is one that stashes them. -/
def cloneCall (k : Answers) (p : Pid) (regs : Regs) : Option CloneInfo :=
  let nr := regs.origRax.toInt
  if nr = SYS_clone ∨ nr = SYS_clone3 then some (cloneArgs k p nr regs) else none

/-- The task was registered with these arguments. -/
def Thread.Of (t : Thread) (info : CloneInfo) : Prop :=
  t.flags = info.flags ∧ t.childTid = info.childTid ∧
    t.scheduled = decide (info.flags &&& CLONE_THREAD ≠ 0)

instance (t : Thread) (info : CloneInfo) : Decidable (t.Of info) :=
  inferInstanceAs (Decidable (_ ∧ _ ∧ _))

structure Calls where
  /-- The arguments of each task that is inside `clone` or `clone3` and has created nobody yet. -/
  due : PidMap CloneInfo
  /-- The arguments of the last `clone` or `clone3` under each pid, until a creation follows. -/
  left : PidMap CloneInfo
  /-- What each new task was due. -/
  made : PidMap CloneInfo
  /-- What each registration was given, beside what was due. -/
  given : List (CloneInfo × CloneInfo)

namespace Calls

def start : Calls := ⟨∅, ∅, ∅, []⟩

/-- What the next child of `p` is due: nothing, unless `p` is inside `clone` or `clone3`. -/
def owed (g : Calls) (p : Pid) : CloneInfo := (g.due.get p).getD {}

def enter (g : Calls) (p : Pid) : Option CloneInfo → Calls
  | some info => { g with due := g.due.insert p info, left := g.left.insert p info }
  | none => { g with due := g.due.erase p }

theorem enter_given (g : Calls) (p : Pid) (call : Option CloneInfo) :
    (g.enter p call).given = g.given := by
  cases call with
  | none => rfl
  | some info => rfl

def leave (g : Calls) (p : Pid) : Calls := { g with due := g.due.erase p }

def create (g : Calls) (s : Supervisor) (p child : Pid) : Calls where
  due := g.due.erase p
  left := g.left.erase p
  made := g.made.insert child (g.owed p)
  given := g.given ++ [((s.clonePending.get p).getD {}, g.owed p)]

def observe (g : Calls) (s : Supervisor) (k : Answers) : WaitStatus → Calls
  | .ptraceSyscall p => match k.syscallInfo p, k.getregs p with
    | .ok .entry, .ok regs => g.enter p (cloneCall k p regs)
    | .ok .exit, _ => g.leave p
    | _, _ => g
  | .ptraceEvent p _ event =>
    if event.creates then
      match k.getevent p with
      | .ok child => g.create s p child
      | .error _ => g
    else g
  | .exited p _ | .signaled p _ _ => g.leave p
  | _ => g

def note (g : Calls) (w : World) : Label → Calls
  | .report r => match r.status with
    | .ok status => g.observe w.machine.sv r.answers status
    | .error _ => g
  | _ => g

end Calls

theorem writeProcMem_stash (addr : U64) (data : List Byte) :
    Keeps Supervisor.clonePending (writeProcMem k p addr data) := by
  intro s
  simp only [KeepsAt, writeProcMem]
  cases k.writeMem p addr data with
  | ok n => rfl
  | error e => rfl

theorem skipSyscall_stash (syscall : Int) (retval : U64) :
    Keeps Supervisor.clonePending (skipSyscall k p syscall retval) :=
  .bind (ptraceResult_keeps _) fun _ => .bind
    (.bind (ptraceResult_keeps _) fun _ => .modify fun _ => rfl) fun _ => .modify fun _ => rfl

theorem virtualClock_stash (s : Supervisor) (clk : U32) :
    (s.virtualClock clk).2.clonePending = s.clonePending := by
  simp only [virtualClock]
  split
  · rfl
  · split
    · rfl
    · rfl

theorem interceptGetrandom_stash (regs : Regs) :
    Keeps Supervisor.clonePending (interceptGetrandom k p regs) := by
  refine fun s => .get_bind (.set_bind rfl ?_)
  split
  · exact .bind (writeProcMem_stash _ _) fun _ => .bind (skipSyscall_stash _ _) fun _ =>
      .modify fun _ => rfl
  · exact .bind (skipSyscall_stash _ _) fun _ => .modify fun _ => rfl

theorem interceptClockGettime_stash (regs : Regs) :
    Keeps Supervisor.clonePending (interceptClockGettime k p regs) :=
  fun s => .get_bind (.set_bind (virtualClock_stash s _) (.bind (writeProcMem_stash _ _) fun _ =>
    .bind (skipSyscall_stash _ _) fun _ => .modify fun _ => rfl))

theorem interceptGettimeofday_stash (regs : Regs) :
    Keeps Supervisor.clonePending (interceptGettimeofday k p regs) :=
  fun s => .get_bind (.set_bind (virtualClock_stash s CLOCK_REALTIME) (.bind (writeProcMem_stash _ _) fun _ =>
    .bind (skipSyscall_stash _ _) fun _ => .modify fun _ => rfl))

theorem wake_stash (s : Supervisor) (addr val : U64) :
    (s.wake addr val).2.clonePending = s.clonePending := by
  rw [wake_frame]

theorem interceptFutex_stash (regs : Regs) :
    Keeps Supervisor.clonePending (interceptFutex k p regs) := by
  have pass (name : String) : Keeps Supervisor.clonePending
      (do modify (·.traceFutex p name "pass"); pure false : SupM Bool) :=
    .bind (.modify fun _ => rfl) fun _ => .pure _
  have woken (retval : U64) (name : String) : Keeps Supervisor.clonePending (do
      skipSyscall k p SYS_futex retval
      modify (·.traceFutex p name "wake")
      pure false : SupM Bool) :=
    .bind (skipSyscall_stash _ _) fun _ => .bind (.modify fun _ => rfl) fun _ => .pure _
  have parked (name : String) : Keeps Supervisor.clonePending (do
      skipSyscall k p SYS_futex 0
      modify fun sv => (sv.block p regs.rdi).traceFutex p name "wait"
      pure true : SupM Bool) :=
    .bind (skipSyscall_stash _ _) fun _ => .bind (.modify fun _ => rfl) fun _ => .pure _
  refine fun s => .get_bind ?_
  split
  · exact pass _ s
  · split
    · split
      · exact parked _ s
      · exact pass _ s
    · split
      · exact .set_bind (wake_stash s _ _) (woken _ _)
      · split
        · split
          · exact pass _ s
          · exact .set_bind ((wake_stash _ _ _).trans (wake_stash s _ _)) (woken _ _)
        · exact pass _ s

theorem onSyscallExit_stash : Keeps Supervisor.clonePending (onSyscallExit k p) := by
  refine fun s => .get_bind (.set_bind rfl ?_)
  cases s.pending.get p with
  | none => exact .pure _
  | some inject =>
    exact .bind (ptraceResult_keeps _) fun _ => .bind
      (.bind (ptraceResult_keeps _) fun _ => .modify fun _ => rfl) fun _ => .modify fun _ => rfl

theorem onSyscallEntry_stash {regs : Regs} (hRegs : k.getregs p = .ok regs) (s : Supervisor) :
    (final (onSyscallEntry k p s)).clonePending = match cloneCall k p regs with
      | some info => s.clonePending.insert p info
      | none => s.clonePending := by
  have answered {x : SupM Unit} (hx : Keeps Supervisor.clonePending x) :
      Keeps Supervisor.clonePending (do x; pure false : SupM Bool) := .bind hx fun _ => .pure _
  have other {nr : Int} (hCall : regs.origRax.toInt = nr)
      (hNot : nr ≠ SYS_clone ∧ nr ≠ SYS_clone3) : cloneCall k p regs = none := by
    simp [cloneCall, hCall, hNot]
  rw [onSyscallEntry, bind_of_ok (ptraceResult_ok.mpr ⟨hRegs, rfl⟩)]
  change (final ((if _ then _ else _ : SupM Bool) s)).clonePending = _
  split
  · rename_i hCall
    rw [other hCall (by decide)]
    exact answered (interceptGetrandom_stash regs) s
  · split
    · rename_i hCall
      have hNone : cloneCall k p regs = none := by
        rcases hCall with hCall | hCall
        · exact other hCall (by decide)
        · exact other hCall (by decide)
      rw [hNone]
      exact answered (interceptClockGettime_stash regs) s
    · split
      · rename_i hCall
        rw [other hCall (by decide)]
        exact answered (interceptGettimeofday_stash regs) s
      · split
        · rename_i hCall
          rw [other hCall (by decide)]
          exact interceptFutex_stash regs s
        · split
          · rename_i hCall
            rw [other hCall (by decide)]
            rfl
          · split
            · rename_i hCall
              rw [cloneCall, if_pos hCall]
              rfl
            · rename_i hCall
              rw [cloneCall, if_neg hCall]
              rfl

/-- What a pass that succeeds leaves stashed. -/
def stashAfter (k : Answers) (s : Supervisor) : WaitStatus → PidMap CloneInfo
  | .ptraceSyscall p => match (k.entry p).bind (cloneCall k p) with
    | some info => s.clonePending.insert p info
    | none => s.clonePending
  | .ptraceEvent p _ event =>
    if event.creates ∧ (k.getevent p).isOk then s.clonePending.erase p else s.clonePending
  | _ => s.clonePending

theorem pass_stash (awaits : List Await) (status : WaitStatus) (s : Supervisor) :
    (final (pass k awaits status s)).clonePending = stashAfter k s status := by
  have exited (p : Pid) (record : Bool) :
      (s.onThreadExit p record).clonePending = s.clonePending := by
    rw [onThreadExit_frame]
  have hBase := congrArg Base.clonePending
    ((pass_base (k := k) awaits status s).trans (dispatch_base status s))
  refine hBase.trans ?_
  cases status with
  | ptraceSyscall p =>
    refine (congrArg Base.clonePending (dispatchSyscall_base s)).trans ?_
    simp only [stashAfter, Answers.entry]
    cases k.syscallInfo p with
    | error e => rfl
    | ok op =>
      cases op with
      | entry =>
        cases hRegs : k.getregs p with
        | ok regs => exact onSyscallEntry_stash hRegs s
        | error e =>
          rw [onSyscallEntry, hRegs]
          rfl
      | exit => exact onSyscallExit_stash s
      | none => rfl
      | seccomp => rfl
  | ptraceEvent p sig event =>
    simp only [stashAfter]
    cases hCreates : event.creates with
    | false => rfl
    | true =>
      refine (congrArg Base.clonePending (dispatchClone_base s)).trans ?_
      cases k.getevent p with
      | ok child => rfl
      | error e => rfl
  | stopped p sig => rfl
  | exited p code =>
    dsimp only [stashAfter]
    split
    · rfl
    · exact exited p _
  | signaled p sig core =>
    dsimp only [stashAfter]
    split
    · rfl
    · exact exited p _
  | continued p => rfl
  | stillAlive => rfl

/-- What the observer knows of the stash and of the tasks registered. -/
structure Tracked (s : Supervisor) (g : Calls) : Prop where
  left : ∀ p, s.clonePending.get p = g.left.get p
  due : ∀ p info, g.due.get p = some info → g.left.get p = some info
  made : ∀ q info thread, g.made.get q = some info → s.threads.get q = some thread → thread.Of info

/-- A clone event finds what its task is due: the task is inside `clone` or `clone3`, or nothing is
left from such a call under its pid; and no other record is kept under the pid of the child. -/
def Fits (s : Supervisor) (g : Calls) (r : Report) : Prop :=
  ∀ e ∈ r.announces, (g.due.get e.1 = none → (g.left.get e.1).getD {} = {}) ∧
    ∀ thread ∈ s.threads.get e.2, thread.Of (g.owed e.1)

instance (s : Supervisor) (g : Calls) (r : Report) : Decidable (Fits s g r) := by
  unfold Fits
  infer_instance

theorem Report.announces_eq_some {r : Report} {child : Pid} {sig : Signal} {event : Event}
    (hStatus : r.status = .ok (.ptraceEvent p sig event)) (hCreates : event.creates = true)
    (hChild : r.answers.getevent p = .ok child) : (p, child) ∈ r.announces := by
  simp [announces, hStatus, hCreates, hChild, Except.toOption]

namespace Tracked

variable {g : Calls}

/-- What a clone event hands to `register_thread`. -/
theorem given (h : Tracked s g) (hFits : g.due.get p = none → (g.left.get p).getD {} = {}) :
    (s.clonePending.get p).getD {} = g.owed p := by
  rw [h.left, Calls.owed]
  cases hDue : g.due.get p with
  | none => exact hFits hDue
  | some info => rw [h.due p info hDue]

theorem leave (h : Tracked s g) (p : Pid) : Tracked s (g.leave p) := by
  refine { h with due := fun q info hq => ?_ }
  rw [Calls.leave, Map.get_erase] at hq
  split at hq
  · cases hq
  · exact h.due q info hq

theorem enter (h : Tracked s g) (p : Pid) {t : Supervisor} {call : Option CloneInfo}
    (hThreads : t.threads = s.threads) (hStash : t.clonePending = match call with
      | some info => s.clonePending.insert p info
      | none => s.clonePending) : Tracked t (g.enter p call) := by
  cases call with
  | none =>
    refine ⟨fun q => ?_, (h.leave p).due, fun q info thread hq hThread => ?_⟩
    · rw [hStash]
      exact h.left q
    · rw [hThreads] at hThread
      exact h.made q info thread hq hThread
  | some new =>
    refine ⟨fun q => ?_, fun q info hq => ?_, fun q info thread hq hThread => ?_⟩
    · rw [hStash, Calls.enter, Map.get_insert, Map.get_insert, h.left q]
    · simp only [Calls.enter, Map.get_insert] at hq ⊢
      split at hq
      · rename_i hEq
        rw [if_pos hEq, hq]
      · rename_i hne
        rw [if_neg hne]
        exact h.due q info hq
    · rw [hThreads] at hThread
      exact h.made q info thread hq hThread

theorem congr (h : Tracked s g) {t : Supervisor} (hStash : t.clonePending = s.clonePending)
    (hThreads : ∀ q thread, t.threads.get q = some thread → s.threads.get q = some thread) :
    Tracked t g := by
  refine ⟨fun q => ?_, h.due, fun q info thread hq hThread => ?_⟩
  · rw [hStash]
    exact h.left q
  · exact h.made q info thread hq (hThreads q thread hThread)

theorem create (h : Tracked s g) {t : Supervisor} {child : Pid}
    (hStash : t.clonePending = s.clonePending.erase p)
    (hThreads : ∀ q thread, t.threads.get q = some thread → s.threads.get q = some thread ∨
      (q = child ∧ thread.Of (g.owed p)))
    (hKept : ∀ thread, s.threads.get child = some thread → thread.Of (g.owed p)) :
    Tracked t (g.create s p child) := by
  refine ⟨fun q => ?_, fun q info hq => ?_, fun q info thread hq hThread => ?_⟩
  · rw [hStash, Calls.create, Map.get_erase, Map.get_erase, h.left q]
  · simp only [Calls.create, Map.get_erase] at hq ⊢
    split at hq
    · cases hq
    · rename_i hne
      rw [if_neg hne]
      exact h.due q info hq
  · simp only [Calls.create, Map.get_insert] at hq
    split at hq
    · rename_i hEq
      obtain rfl := Option.some.inj hq
      rcases hThreads q thread hThread with hOld | ⟨_, hNew⟩
      · exact hKept thread (hEq ▸ hOld)
      · exact hNew
    · rename_i hne
      rcases hThreads q thread hThread with hOld | ⟨hEq, _⟩
      · exact h.made q info thread hq hOld
      · exact absurd hEq hne

theorem passed (h : Tracked s g) {r : Report} {awaits awaits' : List Await} {t : Supervisor}
    (hStatus : r.status = .ok status) (hFits : Fits s g r)
    (hPass : pass r.answers awaits status s = .ok (.wait awaits') t) :
    Tracked t (g.observe s r.answers status) := by
  have hPassed := pass_ok hPass
  have hStash : t.clonePending = stashAfter r.answers s status := by
    have hFinal := pass_stash (k := r.answers) awaits status s
    rwa [hPass] at hFinal
  -- a record is older than the pass, or its task is the child of a clone event
  have kept (hNot : ∀ q, ¬ ∃ p sig event, status = .ptraceEvent p sig event ∧
      event.creates = true ∧ r.answers.getevent p = .ok q) (q : Pid) (thread : Thread)
      (hThread : t.threads.get q = some thread) : s.threads.get q = some thread := by
    rcases hPassed.lookup q with hSame | hDeath | ⟨_, hChild⟩
    · exact hSame.symm.trans hThread
    · have hGone := hPassed.unregistered hDeath
      rw [registered, hThread] at hGone
      cases hGone
    · exact absurd hChild (hNot q)
  cases status with
  | ptraceSyscall p =>
    have hThreads := kept (by simp)
    simp only [stashAfter, Answers.entry] at hStash
    simp only [Calls.observe]
    cases hOp : r.answers.syscallInfo p with
    | error e =>
      simp only [hOp] at hStash
      exact h.congr hStash hThreads
    | ok op =>
      cases op with
      | entry =>
        cases hRegs : r.answers.getregs p with
        | error e =>
          simp only [hOp, hRegs] at hStash
          exact h.congr hStash hThreads
        | ok regs =>
          simp only [hOp, hRegs, Option.bind_some] at hStash
          have hEntered := h.enter p (t := { s with clonePending := t.clonePending }) rfl hStash
          exact hEntered.congr rfl hThreads
      | exit =>
        simp only [hOp] at hStash
        exact (h.leave p).congr hStash hThreads
      | none =>
        simp only [hOp] at hStash
        exact h.congr hStash hThreads
      | seccomp =>
        simp only [hOp] at hStash
        exact h.congr hStash hThreads
  | ptraceEvent p sig event =>
    simp only [stashAfter] at hStash
    simp only [Calls.observe]
    cases hCreates : event.creates with
    | false =>
      simp only [hCreates, Bool.false_eq_true, false_and, if_false] at hStash ⊢
      refine h.congr hStash (kept ?_)
      rintro q ⟨_, _, _, ⟨⟩, hYes, _⟩
      rw [hCreates] at hYes
      cases hYes
    | true =>
      cases hChild : r.answers.getevent p with
      | error e =>
        simp only [if_true]
        simp only [hCreates, hChild, Except.isOk, Except.toBool, Bool.false_eq_true, and_false,
          if_false] at hStash
        refine h.congr hStash (kept ?_)
        rintro q ⟨_, _, _, ⟨⟩, _, hNamed⟩
        cases hChild.symm.trans hNamed
      | ok child =>
        simp only [if_true]
        simp only [hCreates, hChild, Except.isOk, Except.toBool, and_self, if_true] at hStash
        obtain ⟨hDue, hKept⟩ := hFits _ (Report.announces_eq_some hStatus hCreates hChild)
        refine h.create hStash (fun q thread hThread => ?_) hKept
        rcases hPassed.lookup q with hSame | hDeath | ⟨hFresh, _, _, _, ⟨⟩, _, hNamed⟩
        · exact .inl (hSame.symm.trans hThread)
        · cases hDeath
        · cases hChild.symm.trans hNamed
          rw [hPassed.lookup_fresh hCreates hChild hFresh (h.given hDue)] at hThread
          cases hThread
          exact .inr ⟨rfl, rfl, rfl, rfl⟩
  | stopped p sig => exact h.congr hStash (kept (by simp))
  | exited p code => exact (h.leave p).congr hStash (kept (by simp))
  | signaled p sig core => exact (h.leave p).congr hStash (kept (by simp))
  | continued p => exact h.congr hStash (kept (by simp))
  | stillAlive => exact h.congr hStash (kept (by simp))

end Tracked

namespace World

def Fitting (x : World × Calls) : Label → Prop
  | .report r => Fits x.1.machine.sv x.2 r
  | _ => True

instance (x : World × Calls) : (l : Label) → Decidable (Fitting x l)
  | .report r => inferInstanceAs (Decidable (Fits x.1.machine.sv x.2 r))
  | .spawn _ _ _ _ | .exec _ => .isTrue trivial

variable {pid : Pid} {seed : U64} {x : World × Calls}

theorem tracked (h : ((system pid seed).observed Calls.note .start).Reach Fitting x)
    (hOpen : x.1.machine.result = none) : Tracked x.1.machine.sv x.2 := by
  refine System.Reach.invariant (I := fun x : World × Calls => x.1.machine.result = none →
    Tracked x.1.machine.sv x.2) ?_ ?_ h hOpen
  · rintro ⟨_, _⟩ ⟨⟨k, rfl⟩, rfl⟩ _
    have hStash : (start pid seed k).machine.sv.clonePending = ∅ := by
      have hBoot : (final (boot k (Machine.fresh pid seed))).base = (Machine.fresh pid seed).base :=
        (Keeps.bind scheduleNext_base fun _ => .pure _) _
      rw [start, Machine.start, Machine.settle_sv]
      exact congrArg Base.clonePending hBoot
    refine ⟨fun q => ?_, ?_, ?_⟩
    · rw [hStash]
      rfl
    · rintro q info ⟨⟩
    · rintro q info thread ⟨⟩
  · intro x l y _ hTracked hOk hStep hOpen
    obtain ⟨hNext, hNote⟩ := System.observed_step hStep
    rw [hNote]
    cases l with
    | spawn p c thread vm =>
      rw [spawn_machine hNext] at hOpen ⊢
      exact hTracked hOpen
    | exec p =>
      rw [exec_machine hNext] at hOpen ⊢
      exact hTracked hOpen
    | report r =>
      obtain ⟨hRunning, _, hMachine, _⟩ := observe_eq_some hNext
      rw [hMachine] at hOpen ⊢
      obtain ⟨status, hStatus, hPass⟩ := Machine.step_pass hRunning hOpen
      have hRead : Tracked { x.1.machine.sv with effects := [] } x.2 :=
        (hTracked hRunning).congr rfl fun _ _ => id
      simp only [Calls.note, hStatus]
      exact hRead.passed hStatus hOk hPass

/-- In a run all of whose clone events fit, `register_thread` is given what the child is due, and
what is kept of a task is what it was due. -/
theorem given_eq (h : ((system pid seed).observed Calls.note .start).Reach Fitting x) :
    (∀ e ∈ x.2.given, e.1 = e.2) ∧ (x.1.machine.result = none → ∀ q info thread,
      x.2.made.get q = some info → x.1.machine.sv.threads.get q = some thread →
        thread.Of info) := by
  refine ⟨?_, fun hOpen => (tracked h hOpen).made⟩
  refine System.Reach.invariant (I := fun x : World × Calls => ∀ e ∈ x.2.given, e.1 = e.2)
    ?_ ?_ h
  · rintro ⟨_, _⟩ ⟨_, rfl⟩
    nofun
  · intro x l y hReach hGiven hOk hStep
    obtain ⟨hNext, hNote⟩ := System.observed_step hStep
    rw [hNote]
    cases l with
    | spawn p c thread vm => exact hGiven
    | exec p => exact hGiven
    | report r =>
      obtain ⟨hRunning, _, _, _⟩ := observe_eq_some hNext
      simp only [Calls.note]
      cases hStatus : r.status with
      | error e => exact hGiven
      | ok status =>
        cases status with
        | ptraceSyscall p =>
          simp only [Calls.observe]
          split
          · rw [Calls.enter_given]
            exact hGiven
          · exact hGiven
          · exact hGiven
        | ptraceEvent p sig event =>
          simp only [Calls.observe]
          split
          · rename_i hCreates
            cases hChild : r.answers.getevent p with
            | error e => exact hGiven
            | ok child =>
              obtain ⟨hDue, _⟩ := hOk _ (Report.announces_eq_some hStatus hCreates hChild)
              intro e he
              rcases List.mem_append.mp he with hOld | hNew
              · exact hGiven e hOld
              · rw [List.mem_singleton.mp hNew]
                exact (tracked hReach hRunning).given hDue
          · exact hGiven
        | stopped p sig => exact hGiven
        | exited p code => exact hGiven
        | signaled p sig core => exact hGiven
        | continued p => exact hGiven
        | stillAlive => exact hGiven

/-- The init forks, having tried in vain to create a thread before. -/
def forks (flags : U64) : List Label :=
  [.report (.enters 1 { origRax := 56, rdi := flags }), .report (.leaves 1),
   .report (.enters 1 { origRax := 57 }), .spawn 1 2 false false, .report (.created 1 .fork 2)]

theorem given_eq_thread : ∃ x : World × Calls,
    ((system 1 0).observed Calls.note .start).Reach Fitting x ∧ x.2.given.length = 1 ∧
      ∀ e ∈ x.2.given, e.1 = e.2 := by
  have hRun : (((system 1 0).observed Calls.note .start).exec Fitting (start 1 0 {}, .start)
      twoThreads).map (fun x => x.2.given.length) = some 1 := by decide +kernel
  obtain ⟨x, hExec, hLength⟩ := Option.map_eq_some_iff.mp hRun
  have hInit : ((system 1 0).observed Calls.note .start).init (start 1 0 {}, .start) :=
    ⟨⟨{}, rfl⟩, rfl⟩
  have hReach := System.reach_of_exec hInit hExec
  exact ⟨x, hReach, hLength, (given_eq hReach).1⟩

/-- The child of the fork is registered with the flags of the call that failed. -/
theorem not_given_eq : ¬ ∀ (pid : Pid) (seed : U64) (x : World × Calls),
    ((system pid seed).observed Calls.note .start).Reach System.free x →
      ∀ e ∈ x.2.given, e.1 = e.2 := by
  intro hAll
  have hRun : (((system 1 0).observed Calls.note .start).exec System.free (start 1 0 {}, .start)
      (forks threadFlags)).map (fun x => x.2.given) =
      some [(⟨threadFlags, 0⟩, {})] := by decide +kernel
  obtain ⟨x, hExec, hGiven⟩ := Option.map_eq_some_iff.mp hRun
  have hInit : ((system 1 0).observed Calls.note .start).init (start 1 0 {}, .start) :=
    ⟨⟨{}, rfl⟩, rfl⟩
  have hSame := hAll 1 0 x (System.reach_of_exec hInit hExec)
  rw [hGiven] at hSame
  have hClash := hSame _ List.mem_cons_self
  revert hClash
  decide

end World

end Dtrun
