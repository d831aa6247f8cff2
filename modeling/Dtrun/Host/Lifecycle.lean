import Dtrun.Host.ExecFifo
import Dtrun.Library.FiniteMap
import Dtrun.Library.StateExcept
import Dtrun.Supervisor.Types

/-! # Containers over their whole lives

`create`, `run`, `start`, `kill` and `delete` on one host, with the processes that supervise the
containers, the directories that hold their state and the process table. An operation is one step,
and so is each stage of a supervising process; what may fail in a step is left open, as is which
free pid a new process gets. Ids stand for the directories they name.
-/
namespace Dtrun.Lifecycle
set_option autoImplicit false
open FiniteMap StateExcept Transition Host

abbrev Id := String

def ENOENT : Errno := 2
def ESRCH : Errno := 3
def EIO : Errno := 5
def SIGKILL : Nat := 9

inductive StateError where
  | io (e : Errno)
  | parse | missing
  deriving DecidableEq

inductive HostError where
  | config (message : String)
  | state (e : StateError)
  | io (e : Errno)
  | errno (op : String) (e : Errno)
  | clone (e : Errno)
  | wait (e : Errno)
  | supervise (e : SuperviseError)
  | notFound | notCreated
  | badSignal (message : String)
  deriving DecidableEq

structure ContainerState where
  id : Id
  status : Status
  pid : Pid
  exitCode : Option Int
  deriving DecidableEq

/-- What `state.json` holds, if it can be parsed. -/
inductive Record where
  | missing | broken
  | holds (st : ContainerState)
  deriving DecidableEq

inductive Line where
  /-- An event of the supervisor. -/
  | event (text : String)
  | stdout (line : String)
  | stderr (line : String)
  deriving DecidableEq

structure Dir where
  record : Record
  /-- The FIFO, by its inode. -/
  fifo : Option Nat
  trace : List Line
  deriving DecidableEq

structure Proc where
  /-- The container whose init it is. -/
  init : Option Nat
  /-- It has exited and is still to be reaped. -/
  exited : Bool
  deriving DecidableEq

/-- A container that was spawned, in the order of spawning. -/
structure Container where
  id : Id
  pid : Pid
  deleted : Bool
  /-- What has been added to its trace. -/
  appended : List Line
  deriving DecidableEq

/-- Where the process that supervises a container is. -/
inductive Stage where
  | opening
  | waiting (fifo : Nat)
  | supervising (st : ContainerState)
  deriving DecidableEq

/-- A call of `kill` for the container `id`, going by its recorded status and pid. -/
structure Sent where
  id : Id
  status : Status
  pid : Pid
  /-- The container whose live init had the pid. -/
  target : Option Id
  deriving DecidableEq

structure World where
  procs : Map Pid Proc
  dirs : Map Id Dir
  containers : Map Nat Container
  stages : Map Nat Stage
  /-- The FIFOs that have a byte to be read. -/
  unread : List Nat
  spawned : Nat
  inodes : Nat
  signals : List Sent

inductive Writing where
  | done | notOpened | cutShort
  deriving DecidableEq

inductive Removal where
  | done | refused
  /-- Some of the directory stays: the record, the FIFO, the trace. -/
  | cutShort (record fifo trace : Bool)
  deriving DecidableEq

/-- How the calls of one step come out. -/
structure Outcomes where
  validate : Except HostError Unit := .ok ()
  createDirAll : Except Errno Unit := .ok ()
  resetTrace : Bool := true
  mkfifo : Except Errno Unit := .ok ()
  /-- The pipe and the fork of `create_detached`. -/
  detach : Except HostError Unit := .ok ()
  /-- `spawn_created`, with the pid of the init. -/
  spawn : Except HostError Pid := .error (.config "no entrypoint")
  openFifo : Except Errno Unit := .ok ()
  write : Writing := .done
  append : Line → Bool := fun _ => true
  /-- `parse_signal` -/
  signal : Except HostError Nat := .ok 15
  remove : Removal := .done

abbrev HostM := EStateM HostError World

variable (o : Outcomes)

def hostResult {α : Type} : Except HostError α → HostM α
  | .ok a => pure a
  | .error e => throw e

namespace World

def setDir (w : World) (id : Id) (d : Dir) : World := { w with dirs := w.dirs.insert id d }

/-- The end of the process that supervises `s`. The kernel kills the init if it is left. -/
def endKeeper (w : World) (s : Nat) : World :=
  { w with
    stages := w.stages.erase s
    procs := match w.containers.get s with
      | none => w.procs
      | some c => if w.procs.get c.pid = some ⟨some s, false⟩ then
          w.procs.insert c.pid ⟨some s, true⟩ else w.procs }

end World

def initContainerDir (id : Id) : HostM Unit := do
  let w ← get
  match o.createDirAll, w.dirs.get id with
  | .error e, _ => throw (.io e)
  | .ok (), some _ => pure ()
  | .ok (), none => set (w.setDir id ⟨.missing, none, []⟩)

def resetTrace (id : Id) : HostM Unit := do
  let w ← get
  match w.dirs.get id with
  | some d => if o.resetTrace then set (w.setDir id { d with trace := [] })
  | none => pure ()

def writeState (st : ContainerState) : HostM Unit := do
  let w ← get
  match w.dirs.get st.id, o.write with
  | none, _ => throw (.state (.io ENOENT))
  | some _, .notOpened => throw (.state (.io EIO))
  | some d, .cutShort =>
    set (w.setDir st.id { d with record := .broken })
    throw (.state (.io EIO))
  | some d, .done => set (w.setDir st.id { d with record := .holds st })

def readState (id : Id) : HostM ContainerState := do
  match ((← get).dirs.get id).map Dir.record with
  | none | some .missing => throw (.state .missing)
  | some .broken => throw (.state .parse)
  | some (.holds st) => pure st

/-- Containers of that id are deleted once something has been removed. -/
def removeState (id : Id) : HostM Unit := do
  let w ← get
  let deleted (c : Container) : Container := if c.id = id then { c with deleted := true } else c
  match w.dirs.get id, o.remove with
  | none, _ => throw (.state (.io ENOENT))
  | some _, .refused => throw (.state (.io EIO))
  | some d, .cutShort record fifo trace =>
    set { w.setDir id {
      record := if record then d.record else .missing
      fifo := if fifo then d.fifo else none
      trace := if trace then d.trace else [] } with containers := mapValues deleted w.containers }
    throw (.state (.io EIO))
  | some _, .done =>
    set { w with dirs := w.dirs.erase id, containers := mapValues deleted w.containers }

/-- A line for the trace of container `s`, by the path of its id. -/
def traceEvent (s : Nat) (line : Line) : HostM Unit := do
  let w ← get
  match w.containers.get s with
  | none => pure ()
  | some c => match w.dirs.get c.id with
    | none => pure ()
    | some d =>
      if o.append line then
        set { w.setDir c.id { d with trace := d.trace ++ [line] } with
          containers := w.containers.insert s { c with appended := c.appended ++ [line] } }

def mkState (id : Id) (status : Status) (pid : Pid) : ContainerState := ⟨id, status, pid, none⟩

/-- Up to the stop in which the init waits to be let go. -/
def spawnCreated (id : Id) : HostM (Nat × Pid) := do
  let pid ← hostResult o.spawn
  modifyGet fun w => ((w.spawned, pid), { w with
    procs := w.procs.insert pid ⟨some w.spawned, false⟩
    containers := w.containers.insert w.spawned ⟨id, pid, false, []⟩
    spawned := w.spawned + 1 })

def orEnd (s : Nat) (x : HostM Unit) : HostM Unit := fun w =>
  match x w with
  | .ok a w => .ok a w
  | .error e w => .error e (w.endKeeper s)

def enter (s : Nat) (stage : Stage) : HostM Unit :=
  modify fun w => { w with stages := w.stages.insert s stage }

/-- `Host::run` up to `supervise`. -/
def run (id : Id) : HostM Unit := do
  hostResult o.validate
  initContainerDir o id
  resetTrace o id
  let (s, child) ← spawnCreated o id
  orEnd s do
    let st := mkState id .running child
    writeState o st
    enter s (.supervising st)

def makeFifo (id : Id) : HostM Unit := do
  let w ← get
  match w.dirs.get id with
  | none => throw (.errno "mkfifo" ENOENT)
  | some d => match d.fifo, o.mkfifo with
    -- `EEXIST`
    | some _, _ => pure ()
    | none, .error e => throw (.errno "mkfifo" e)
    | none, .ok () =>
      set { w.setDir id { d with fifo := some w.inodes } with inodes := w.inodes + 1 }

/-- What the daemon does before it reports the pid; `create` waits for the report. -/
def supervisorCreated (id : Id) : HostM Unit := do
  let (s, child) ← spawnCreated o id
  orEnd s do
    writeState o (mkState id .created child)
    enter s .opening

def create (id : Id) : HostM Unit := do
  hostResult o.validate
  initContainerDir o id
  resetTrace o id
  makeFifo o id
  hostResult o.detach
  supervisorCreated o id

/-- `supervisor_wait_and_run` up to the read. -/
def openFifo (s : Nat) (id : Id) : HostM Unit := orEnd s do
  match ((← get).dirs.get id).bind Dir.fifo, o.openFifo with
  | none, _ => throw (.io ENOENT)
  | some _, .error e => throw (.io e)
  | some fifo, .ok () => enter s (.waiting fifo)

/-- `supervisor_wait_and_run` from the byte in the FIFO to `supervise`. -/
def released (s : Nat) (id : Id) (child : Pid) (fifo : Nat) : HostM Unit := orEnd s do
  modify fun w => { w with unread := w.unread.filter fun i => i ≠ fifo }
  let st ← tryCatch (readState id) fun _ => pure (mkState id .created child)
  let st := { st with status := .running, pid := child }
  writeState o st
  enter s (.supervising st)

/-- `supervise_and_finish` from the end of `supervise`. -/
def finish (s : Nat) (st : ContainerState) (result : Except SuperviseError Int)
    (stdout stderr : List String) : HostM Unit := orEnd s do
  let code ← hostResult (result.mapError .supervise)
  tryCatch (writeState o { st with status := .stopped, exitCode := some code }) fun _ => pure ()
  stdout.forM fun line => traceEvent o s (.stdout line)
  stderr.forM fun line => traceEvent o s (.stderr line)
  modify fun w => w.endKeeper s

def startContainer (id : Id) : HostM Unit := do
  let st ← readState id
  if st.status ≠ .created then
    throw .notCreated
  let w ← get
  match (w.dirs.get id).bind Dir.fifo, o.openFifo with
  | none, _ => throw (.io ENOENT)
  | some _, .error e => throw (.io e)
  | some fifo, .ok () =>
    -- A byte that nobody has the FIFO open for is lost when it is closed again.
    if w.stages.entries.any fun e => e.2 = .waiting fifo then
      set { w with unread := fifo :: w.unread }

/-- The id of the container whose live init has the pid. -/
def World.initOf (w : World) (p : Pid) : Option Id :=
  (w.procs.get p).bind fun proc =>
    if proc.exited then none else proc.init.bind fun s => (w.containers.get s).map Container.id

/-- Signals other than `SIGKILL` end a process in a step of its own, if at all. -/
def World.signal (w : World) (id : Id) (st : ContainerState) (sig : Nat) : World :=
  { w with
    signals := w.signals ++ [⟨id, st.status, st.pid, w.initOf st.pid⟩]
    procs := match w.procs.get st.pid with
      | some p => if sig = SIGKILL then w.procs.insert st.pid { p with exited := true } else w.procs
      | none => w.procs }

def sendSignal (id : Id) (st : ContainerState) (sig : Nat) : HostM Unit := do
  let w ← get
  set (w.signal id st sig)
  if w.procs.get st.pid = none then
    throw (.errno "kill" ESRCH)

def killContainer (id : Id) : HostM Unit := do
  let st ← readState id
  if st.pid ≤ 0 then
    throw .notFound
  let sig ← hostResult o.signal
  sendSignal id st sig

def deleteContainer (id : Id) (force : Bool) : HostM Unit := do
  let st ← readState id
  if st.status ≠ .stopped ∧ ¬ force then
    throw (.config s!"container '{id}' is still running (use --force)")
  if force ∧ 0 < st.pid then
    tryCatch (sendSignal id st SIGKILL) fun _ => pure ()
  removeState o id

inductive Label where
  | create (o : Outcomes) (id : Id)
  | run (o : Outcomes) (id : Id)
  | start (o : Outcomes) (id : Id)
  | kill (o : Outcomes) (id : Id)
  | delete (o : Outcomes) (id : Id) (force : Bool)
  /-- The steps of the process that supervises a container. -/
  | opens (o : Outcomes) (s : Nat)
  | releases (o : Outcomes) (s : Nat)
  | reports (o : Outcomes) (s : Nat) (text : String)
  | finishes (o : Outcomes) (s : Nat) (result : Except SuperviseError Int)
      (stdout stderr : List String)
  /-- Any other process of the host. -/
  | spawns (p : Pid)
  | exits (p : Pid)
  | reaps (p : Pid)

namespace World

def Alive (w : World) (s : Nat) (c : Container) : Prop :=
  w.procs.get c.pid = some ⟨some s, false⟩

instance (w : World) (s : Nat) (c : Container) : Decidable (w.Alive s c) :=
  inferInstanceAs (Decidable (_ = _))

/-- The kernel gives a new process a pid that is free. -/
def grants (w : World) (o : Outcomes) : Bool :=
  match o.spawn with
  | .ok p => 0 < p ∧ w.procs.get p = none
  | .error _ => true

def done (w : World) (x : HostM Unit) : Option World := some (final (x w))

/-- A step of the process that supervises `s`, at the stage it is in. -/
def keeperStep (w : World) (s : Nat) (x : Container → Stage → Option (HostM Unit)) :
    Option World :=
  match w.containers.get s, w.stages.get s with
  | some c, some stage => (x c stage).bind w.done
  | _, _ => none

def step (w : World) : Label → Option World
  | .create o id => if w.grants o then w.done (create o id) else none
  | .run o id => if w.grants o then w.done (run o id) else none
  | .start o id => w.done (startContainer o id)
  | .kill o id => w.done (killContainer o id)
  | .delete o id force => w.done (deleteContainer o id force)
  | .opens o s => w.keeperStep s fun c stage => match stage with
    | .opening => some (openFifo o s c.id)
    | _ => none
  | .releases o s => w.keeperStep s fun c stage => match stage with
    | .waiting fifo => if fifo ∈ w.unread then some (released o s c.id c.pid fifo) else none
    | _ => none
  | .reports o s text => w.keeperStep s fun _ stage => match stage with
    | .supervising _ => some (traceEvent o s (.event text))
    | _ => none
  | .finishes o s result stdout stderr => w.keeperStep s fun c stage => match stage with
    | .supervising st =>
      -- `supervise` returns a code once the init has been reported dead.
      if result.isOk ∧ w.Alive s c then none
      else some (finish o s st result stdout stderr)
    | _ => none
  | .spawns p => if 0 < p ∧ w.procs.get p = none then
      some { w with procs := w.procs.insert p ⟨none, false⟩ } else none
  | .exits p => match w.procs.get p with
    | some proc => some { w with procs := w.procs.insert p { proc with exited := true } }
    | none => none
  | .reaps p => match w.procs.get p with
    | some proc => if proc.exited then some { w with procs := w.procs.erase p } else none
    | none => none

def empty : World where
  procs := ∅
  dirs := ∅
  containers := ∅
  stages := ∅
  unread := []
  spawned := 0
  inodes := 0
  signals := []

end World

def system : System World Label where
  init w := w = .empty
  step := World.step

end Dtrun.Lifecycle
