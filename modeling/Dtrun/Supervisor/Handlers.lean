import Dtrun.Library.StateExcept
import Dtrun.Supervisor.Types

/-! # The handlers of the supervisor

Every method of `impl Supervisor` under its own name. What cannot fail is a function on the
bookkeeping; what asks the kernel runs in `SupM`, whose failures keep the state they happened in.
`dispatch` stops where `await_attach` would wait, and says so in its result.
-/
namespace Dtrun
set_option autoImplicit false
open FiniteMap

abbrev SupM := EStateM SuperviseError Supervisor

/-- `map_err(SuperviseError::Ptrace)?` -/
def ptraceResult {α : Type} : Except Errno α → SupM α
  | .ok a => pure a
  | .error e => throw (.ptrace e)

namespace Supervisor

def isScheduled (sv : Supervisor) (p : Pid) : Bool :=
  match sv.threads.get p with
  | some t => t.scheduled
  | none => false

def registered (sv : Supervisor) (p : Pid) : Bool := (sv.threads.get p).isSome

def scheduledCount (sv : Supervisor) : Nat :=
  (sv.threads.entries.filter fun e => e.2.scheduled).length

def anyConcurrent (sv : Supervisor) : Bool := sv.threads.entries.any fun e => !e.2.scheduled

def traceJson (sv : Supervisor) (event : String) (detail : List (String × Value)) : Supervisor :=
  { sv with
    seq := sv.seq + 1
    trace := sv.trace ++ [⟨sv.seq + 1, event, detail⟩] }

/-- `json!` of an `Option<u64>`. -/
def vtidOf : Option Nat → Value
  | some v => .num v
  | none => .null

def traceFutex (sv : Supervisor) (p : Pid) (op kind : String) : Supervisor :=
  sv.traceJson "futex" [("op", .str op), ("kind", .str kind), ("tid", vtidOf ((sv.threads.get p).map Thread.vtid))]

def traceSyscall (sv : Supervisor) (nr : Int) (kind : String) : Supervisor :=
  sv.traceJson (syscallName nr) [("kind", .str kind)]

def traceLifecycle (sv : Supervisor) (event : String) (code : Int) : Supervisor :=
  sv.traceJson event [("code", .num code)]

def enqueue (sv : Supervisor) (p : Pid) : Supervisor := { sv with runnable := sv.runnable ++ [p] }

/-- The queue of threads parked on a futex word; no entry is an empty queue. -/
def parkedOn (sv : Supervisor) (addr : U64) : List Pid := (sv.waiting.get addr).getD []

def block (sv : Supervisor) (p : Pid) (addr : U64) : Supervisor :=
  { sv with
    blocked := insert p sv.blocked
    waiting := sv.waiting.insert addr (sv.parkedOn addr ++ [p]) }

/-- The `while woken < cap` loop of `wake`: the number woken, what is left of the queue, and the
new state. -/
def wakeLoop (cap : Nat) : List Pid → Nat → Supervisor → Nat × List Pid × Supervisor
  | [], woken, sv => (woken, [], sv)
  | t :: parked, woken, sv =>
    if woken < cap then
      if t ∈ sv.blocked then
        wakeLoop cap parked (woken + 1) ({ sv with blocked := sv.blocked.erase t }.enqueue t)
      else wakeLoop cap parked woken sv
    else (woken, t :: parked, sv)

def wake (sv : Supervisor) (addr val : U64) : Nat × Supervisor :=
  let cap := val.toInt.toNat
  if cap = 0 then (0, sv)
  else match sv.waiting.get addr with
    | none => (0, sv)
    | some parked =>
      let (woken, parked, sv) :=
        wakeLoop cap parked 0 { sv with waiting := sv.waiting.erase addr }
      (woken, if parked = [] then sv
        else { sv with waiting := sv.waiting.insert addr parked })

def dropFrom (p : Pid) (queue : List Pid) : Option (List Pid) :=
  let queue := queue.filter fun q => q ≠ p
  if queue = [] then none else some queue

/-- The second half of `on_thread_exit`, which runs for unregistered pids too. -/
def forget (sv : Supervisor) (p : Pid) : Supervisor :=
  { sv with
    runnable := sv.runnable.filter fun q => q ≠ p
    blocked := sv.blocked.erase p
    waiting := filterMapValues (dropFrom p) sv.waiting
    sigPending := sv.sigPending.erase p
    pendingStart := sv.pendingStart.erase p
    stoppedPending := sv.stoppedPending.erase p }

/-- The kernel's wake at the exit of a thread with `CLONE_CHILD_CLEARTID`. -/
def clearTidWake (sv : Supervisor) (t : Thread) : Supervisor :=
  if t.childTid ≠ 0 ∧ t.flags &&& CLONE_CHILD_CLEARTID ≠ 0 then (sv.wake t.childTid 1).2 else sv

def onThreadExit (sv : Supervisor) (p : Pid) (record : Bool) : Supervisor :=
  match sv.threads.get p with
  | none => sv.forget p
  | some t =>
    let sv := { sv with threads := sv.threads.erase p }.clearTidWake t
    let sv := if record then sv.traceJson "thread_exit" [("tid", .num t.vtid)] else sv
    { sv with pending := sv.pending.erase p }.forget p

def virtualClock (sv : Supervisor) (clk : U32) : (U64 × U64) × Supervisor :=
  if clk = CLOCK_REALTIME ∨ clk = CLOCK_REALTIME_COARSE then ((VIRTUAL_EPOCH, 0), sv)
  else if clk = CLOCK_MONOTONIC ∨ clk = CLOCK_MONOTONIC_COARSE ∨ clk = CLOCK_BOOTTIME then
    let t := sv.tick
    ((t * MONO_STEP_NS / 1000000000, t * MONO_STEP_NS % 1000000000), { sv with tick := t + 1 })
  else ((VIRTUAL_EPOCH, 0), sv)

end Supervisor

open Supervisor

variable (k : Answers)

/-- `ptrace::syscall(p, sig)` -/
def ptraceSyscall (p : Pid) (sig : Option Signal) : SupM Unit := do
  ptraceResult (k.syscall p)
  modify fun sv => { sv with effects := sv.effects ++ [.resume p sig] }

def ptraceSetregs (p : Pid) (regs : Regs) : SupM Unit := do
  ptraceResult (k.setregs p)
  modify fun sv => { sv with effects := sv.effects ++ [.setregs p regs] }

def readU32 (p : Pid) (addr : U64) : Option U32 :=
  match k.readMem p addr 4 with
  | .ok bytes => some (leU32 bytes)
  | .error _ => none

def writeProcMem (p : Pid) (addr : U64) (data : List Byte) : SupM Unit :=
  match k.writeMem p addr data with
  | .ok n => modify fun sv => { sv with effects := sv.effects ++ [.write p addr (data.take n)] }
  | .error e => throw (.io e)

def resumeThread (p : Pid) : SupM Unit := do
  let sv ← get
  let sig := sv.sigPending.get p
  set { sv with sigPending := sv.sigPending.erase p }
  ptraceSyscall k p sig

def resumeCurrent (p : Pid) : SupM Unit := do
  if (← get).current = some p then
    resumeThread k p

/-- Make a runnable thread current and resume it. -/
def runThread (tid : Pid) (thread : Thread) : SupM Unit := do
  let sv ← get
  let sv := if sv.lastVtid ≠ some thread.vtid then
      sv.traceJson "schedule" [("from", vtidOf sv.lastVtid), ("to", .num thread.vtid)]
    else sv
  set { sv with lastVtid := some thread.vtid, current := some tid }
  resumeThread k tid

/-- The loop of `schedule_next`, on what is left of the queue. -/
def scheduleLoop : List Pid → SupM Unit
  | [] => do
    let sv ← get
    if sv.pendingStart.Nonempty ∨ sv.anyConcurrent then pure () else throw .deadlock
  | tid :: rest => do
    modify fun sv => { sv with runnable := rest }
    let sv ← get
    match sv.threads.get tid with
    | none => scheduleLoop rest
    | some thread =>
      if tid ∈ sv.blocked then scheduleLoop rest else runThread k tid thread

def scheduleNext : SupM Unit := do
  scheduleLoop k (← get).runnable

def yieldCurrent (p : Pid) : SupM Unit := do
  modify fun sv => if sv.current = some p then { sv with current := none }.enqueue p else sv
  scheduleNext k

/-- Release a task whose attach stop has been seen: a scheduled thread joins the queue, a
concurrent process is resumed. -/
def release (p : Pid) : SupM Unit := do
  if (← get).isScheduled p then
    modify (·.enqueue p)
  else
    resumeThread k p

def registerThread (p : Pid) (info : CloneInfo) : SupM Unit := do
  let sv ← get
  if sv.registered p then
    pure ()
  else
    let vtid := sv.vtidNext
    let scheduled : Bool := info.flags &&& CLONE_THREAD ≠ 0
    set { sv with
      vtidNext := vtid + 1
      threads := sv.threads.insert p ⟨vtid, info.childTid, info.flags, scheduled⟩ }
    if p ∈ sv.stoppedPending then
      modify fun sv => { sv with stoppedPending := sv.stoppedPending.erase p }
      release k p
    else
      modify fun sv => { sv with pendingStart := insert p sv.pendingStart }
    modify (·.traceJson "thread_create" [("tid", .num vtid), ("scheduled", .bool scheduled)])

def skipSyscall (p : Pid) (syscall : Int) (retval : U64) : SupM Unit := do
  let regs ← ptraceResult (k.getregs p)
  ptraceSetregs k p { regs with origRax := -1 }
  modify fun sv => { sv with pending := sv.pending.insert p ⟨syscall, retval⟩ }

def interceptGetrandom (p : Pid) (regs : Regs) : SupM Unit := do
  let buf := regs.rdi
  let buflen := min regs.rsi.toNat (1 <<< 20)
  let sv ← get
  let (out, rng) := sv.rng.fill buflen
  set { sv with rng := rng }
  if buflen > 0 then
    writeProcMem k p buf out
  skipSyscall k p SYS_getrandom (BitVec.ofNat 64 buflen)
  modify (·.traceJson "getrandom" [("nbytes", .num buflen), ("bytes", .str (hexBytes out))])

def interceptClockGettime (p : Pid) (regs : Regs) : SupM Unit := do
  let clk := regs.rdi.setWidth 32
  let tsPtr := regs.rsi
  let ((sec, nsec), sv) := (← get).virtualClock clk
  set sv
  writeProcMem k p tsPtr (toLeBytes sec ++ toLeBytes nsec)
  skipSyscall k p SYS_clock_gettime 0
  modify (·.traceJson "clock_gettime"
    [("clock", .num clk.toInt), ("sec", .num sec.toNat), ("nsec", .num nsec.toNat)])

def interceptGettimeofday (p : Pid) (regs : Regs) : SupM Unit := do
  let tvPtr := regs.rdi
  let ((sec, nsec), sv) := (← get).virtualClock CLOCK_REALTIME
  set sv
  writeProcMem k p tvPtr (toLeBytes sec ++ toLeBytes (nsec / 1000))
  skipSyscall k p SYS_gettimeofday 0
  modify (·.traceJson "gettimeofday"
    [("sec", .num sec.toNat), ("usec", .num (nsec / 1000).toNat)])

/-- `true` means that the calling thread is parked. -/
def interceptFutex (p : Pid) (regs : Regs) : SupM Bool := do
  let uaddr := regs.rdi
  let val := regs.rdx
  let cmd := regs.rsi.setWidth 32 &&& FUTEX_CMD_MASK
  let sv ← get
  if ¬ sv.isScheduled p ∨ sv.scheduledCount ≤ 1 then
    modify (·.traceFutex p (futexCmdName cmd) "pass")
    pure false
  else if cmd = FUTEX_WAIT ∨ cmd = FUTEX_WAIT_BITSET then
    if readU32 k p uaddr = some (val.setWidth 32) then
      skipSyscall k p SYS_futex 0
      modify fun sv => (sv.block p uaddr).traceFutex p (futexCmdName cmd) "wait"
      pure true
    else
      modify (·.traceFutex p (futexCmdName cmd) "pass")
      pure false
  else if cmd = FUTEX_WAKE ∨ cmd = FUTEX_WAKE_BITSET then
    let (n, sv) := sv.wake uaddr val
    set sv
    skipSyscall k p SYS_futex (BitVec.ofNat 64 n)
    modify (·.traceFutex p (futexCmdName cmd) "wake")
    pure false
  else if cmd = FUTEX_REQUEUE ∨ cmd = FUTEX_CMP_REQUEUE then
    if cmd = FUTEX_CMP_REQUEUE ∧ readU32 k p uaddr ≠ some (regs.r9.setWidth 32) then
      modify (·.traceFutex p (futexCmdName cmd) "pass")
      pure false
    else
      let val2 := regs.r10
      let (n, sv) := sv.wake uaddr val
      let (m, sv) := sv.wake uaddr val2
      set sv
      skipSyscall k p SYS_futex (BitVec.ofNat 64 (n + m))
      modify (·.traceFutex p (futexCmdName cmd) "wake")
      pure false
  else
    modify (·.traceFutex p (futexCmdName cmd) "pass")
    pure false

/-- The flags and the `child_tid` word of a `clone` or `clone3` call. -/
def cloneArgs (p : Pid) (nr : Int) (regs : Regs) : CloneInfo :=
  if nr = SYS_clone3 then
    match k.readMem p regs.rdi 24 with
    | .ok buf => if buf.length = 24 then ⟨leU64 (buf.take 8), leU64 ((buf.drop 16).take 8)⟩ else {}
    | .error _ => {}
  else ⟨regs.rdi, regs.r10⟩

def stashClone (p : Pid) (nr : Int) (regs : Regs) : SupM Unit :=
  modify fun sv => { sv with clonePending := sv.clonePending.insert p (cloneArgs k p nr regs) }

def onSyscallEntry (p : Pid) : SupM Bool := do
  let regs ← ptraceResult (k.getregs p)
  let nr := regs.origRax.toInt
  if nr = SYS_getrandom then
    interceptGetrandom k p regs
    pure false
  else if nr = SYS_clock_gettime ∨ nr = SYS_CLOCK_GETTIME64 then
    interceptClockGettime k p regs
    pure false
  else if nr = SYS_gettimeofday then
    interceptGettimeofday k p regs
    pure false
  else if nr = SYS_futex then
    interceptFutex k p regs
  else if nr = SYS_exit_group then
    modify fun sv => { sv with groupExiting := true }.traceSyscall nr "pass"
    pure false
  else if nr = SYS_clone ∨ nr = SYS_clone3 then
    stashClone k p nr regs
    modify (·.traceSyscall nr "pass")
    pure false
  else
    modify (·.traceSyscall nr "pass")
    pure false

def onSyscallExit (p : Pid) : SupM Unit := do
  let sv ← get
  set { sv with pending := sv.pending.erase p }
  match sv.pending.get p with
  | none => pure ()
  | some inject =>
    let regs ← ptraceResult (k.getregs p)
    ptraceSetregs k p { regs with rax := inject.retval }
    modify (·.traceSyscall inject.syscall "inject")

/-- An `await_attach(child)` that is waiting, called for a clone event of `parent`. -/
structure Await where
  child : Pid
  parent : Pid
  deriving DecidableEq

/-- How `dispatch` leaves: with `Ok(None)`, with `Ok(Some(code))`, or waiting in `await_attach`. -/
inductive Flow where
  | next
  | exit (code : Int)
  | await (w : Await)

/-- How `dispatch` lets a task go on after a ptrace event, and after `await_attach` in the clone
branch. -/
def resumeTask (p : Pid) : SupM Unit := do
  if (← get).isScheduled p then resumeCurrent k p else resumeThread k p

def dispatchSyscall (p : Pid) : SupM Unit := do
  let op ← ptraceResult (k.syscallInfo p)
  if ¬ (← get).isScheduled p then
    match op with
    | .entry => discard <| onSyscallEntry k p
    | .exit => onSyscallExit k p
    | _ => pure ()
    resumeThread k p
  else
    match op with
    | .entry =>
      if ← onSyscallEntry k p then
        modify fun sv => { sv with current := none }
      else
        resumeCurrent k p
    | .exit =>
      onSyscallExit k p
      yieldCurrent k p
    | _ => resumeCurrent k p

def dispatchClone (p : Pid) : SupM Flow := do
  let child ← ptraceResult (k.getevent p)
  let sv ← get
  let info := (sv.clonePending.get p).getD {}
  set { sv with clonePending := sv.clonePending.erase p }
  registerThread k child info
  if child ∈ (← get).pendingStart then
    pure (.await ⟨child, p⟩)
  else
    resumeTask k p
    pure .next

def dispatchStopped (p : Pid) (sig : Signal) : SupM Unit := do
  let sv ← get
  if sig = .SIGSTOP then
    if sv.current = some p then
      resumeThread k p
    else if p ∈ sv.pendingStart then
      set { sv with pendingStart := sv.pendingStart.erase p }
      release k p
    else if ¬ sv.registered p then
      set { sv with stoppedPending := insert p sv.stoppedPending }
  else if sv.current = some p then
    ptraceSyscall k p (some sig)
  else if sv.isScheduled p then
    set { sv with sigPending := sv.sigPending.insert p sig }
  else if sv.registered p then
    ptraceSyscall k p (some sig)

def dispatchExit (p : Pid) : SupM Unit := do
  let sv ← get
  let wasCurrent : Bool := sv.current = some p
  set (sv.onThreadExit p wasCurrent)
  if wasCurrent ∧ ¬ (← get).groupExiting then
    modify fun sv => { sv with current := none }
    scheduleNext k

def dispatch (status : WaitStatus) : SupM Flow := do
  match status with
  | .ptraceSyscall p =>
    dispatchSyscall k p
    pure .next
  | .ptraceEvent p _ event =>
    match event with
    | .clone | .fork | .vfork => dispatchClone k p
    | .exit =>
      resumeThread k p
      pure .next
    | _ =>
      resumeTask k p
      pure .next
  | .stopped p sig =>
    dispatchStopped k p sig
    pure .next
  | .exited p code =>
    if p = (← get).pid then
      modify (·.traceLifecycle "exit" code)
      pure (.exit code)
    else
      dispatchExit k p
      pure .next
  | .signaled p sig _ =>
    if p = (← get).pid then
      modify (·.traceLifecycle "signal" sig.number)
      pure (.exit (128 + sig.number))
    else
      dispatchExit k p
      pure .next
  | .continued _ | .stillAlive => pure .next

end Dtrun
