import Dtrun.Supervisor.Handlers

/-! # The supervisor as a machine that reads one wait status at a time

`supervise` waits in two places: in the loop of `run`, and in the loop of an `await_attach` that a
clone event called. The second can nest, since a status read there is dispatched like any other.
The calls in progress are therefore a stack, innermost first; between two statuses the machine is
the bookkeeping together with that stack.
-/
namespace Dtrun
set_option autoImplicit false

/-- One return of `wait`, with the kernel's answers to what is asked before the next one. -/
structure Report where
  status : Except Errno WaitStatus
  answers : Answers

def Report.death (r : Report) : Option Pid :=
  match r.status with
  | .ok status => status.death
  | .error _ => none

/-! The statuses of a kernel that grants every request, each with the answers that go with it. -/

namespace Report

/-- Any status that nothing is asked about. -/
def plain (status : WaitStatus) : Report := ⟨.ok status, {}⟩

def enters (p : Pid) (regs : Regs) : Report :=
  ⟨.ok (.ptraceSyscall p), { syscallInfo := fun _ => .ok .entry, getregs := fun _ => .ok regs }⟩

def leaves (p : Pid) : Report :=
  ⟨.ok (.ptraceSyscall p), { syscallInfo := fun _ => .ok .exit }⟩

def created (p : Pid) (event : Event) (child : Pid) : Report :=
  ⟨.ok (.ptraceEvent p .SIGTRAP event), { getevent := fun _ => .ok child }⟩

end Report

/-- What handling a status leads to: waiting again, or `supervise` returning a code. -/
inductive Turn where
  | wait (awaits : List Await)
  | done (code : Int)

variable (k : Answers)

/-- The tail of the loop body of `run`. -/
def runTail : SupM Unit := do
  if (← get).current = none then
    scheduleNext k

/-- `run` up to its first `wait`. -/
def boot : SupM Turn := do
  scheduleNext k
  pure (.wait [])

/-- One pass of the loop of `run`. -/
def runPass (status : WaitStatus) : SupM Turn := do
  match ← dispatch k status with
  | .next =>
    runTail k
    pure (.wait [])
  | .exit code => pure (.done code)
  | .await w => pure (.wait [w])

/-- One pass of the loop of the innermost `await_attach`. When it returns, the clone event it was
called for is finished; if no other call is open, so is the pass of `run` around it. -/
def awaitPass (w : Await) (outer : List Await) (status : WaitStatus) : SupM Turn := do
  if status = .stopped w.child .SIGSTOP then
    modify fun sv => { sv with pendingStart := sv.pendingStart.erase w.child }
    release k w.child
    resumeTask k w.parent
    if outer = [] then
      runTail k
    pure (.wait outer)
  else
    match ← dispatch k status with
    | .next => pure (.wait (w :: outer))
    | .exit code => pure (.done code)
    | .await inner => pure (.wait (inner :: w :: outer))

def pass : List Await → WaitStatus → SupM Turn
  | [], status => runPass k status
  | w :: outer, status => awaitPass k w outer status

def handle (awaits : List Await) (r : Report) : SupM Turn := do
  match r.status with
  | .ok status => pass r.answers awaits status
  | .error e => throw (.wait e)

/-- The supervisor between two statuses. `result` is set once `supervise` has returned. The effects
in `sv` are those of the last pass; `log` keeps all of them. -/
structure Machine where
  sv : Supervisor
  awaits : List Await
  result : Option (Except SuperviseError Int)
  log : List Effect

namespace Machine

def settle (log : List Effect) : EStateM.Result SuperviseError Supervisor Turn → Machine
  | .ok (.wait awaits) sv => ⟨sv, awaits, none, log ++ sv.effects⟩
  | .ok (.done code) sv => ⟨sv, [], some (.ok code), log ++ sv.effects⟩
  | .error e sv => ⟨sv, [], some (.error e), log ++ sv.effects⟩

/-- The fields `supervise` starts from. -/
def fresh (pid : Pid) (seed : U64) : Supervisor where
  pid := pid
  rng := Prng.new seed
  tick := 0
  pending := ∅
  seq := 0
  threads := AList.singleton pid ⟨0, 0, 0, true⟩
  vtidNext := 1
  runnable := [pid]
  pendingStart := ∅
  stoppedPending := ∅
  blocked := ∅
  waiting := ∅
  current := none
  lastVtid := none
  sigPending := ∅
  clonePending := ∅
  groupExiting := false
  trace := []
  effects := []

def start (pid : Pid) (seed : U64) (k : Answers) : Machine := settle [] (boot k (fresh pid seed))

def step (m : Machine) (r : Report) : Machine :=
  match m.result with
  | none => settle m.log (handle m.awaits r { m.sv with effects := [] })
  | some _ => m

def steps (m : Machine) (reports : List Report) : Machine := reports.foldl step m

end Machine

end Dtrun
