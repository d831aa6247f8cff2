import Dtrun.Host.Spawn
import Dtrun.Host.StateJson

/-! # Commands on one id, system call by system call

Any number of processes run commands on one id; the process of `create` goes on as the daemon, as
its parent only waits for the daemon's line. A step is one system call. Files and directories are
told apart by their inodes, so that what a process has open outlives its name, and a file is read
and written in pieces of any size. `trace.jsonl` is left out: all it can do here is to keep a
directory from being removed, which `rmdir` may fail to do in any case. That a call fails for want
of the file it names follows from the state; any other error may come at any time.
-/
namespace Dtrun.Commands
set_option autoImplicit false
open FiniteMap Host Pipes Transition
open Lifecycle (HostError StateError ENOENT ESRCH SIGKILL)
open Spawning (Operation)

abbrev Inode := Nat
abbrev Process := Nat

def ENOTEMPTY : Errno := 39

/-! ## Files -/

structure Dir where
  state : Option Inode
  fifo : Option Inode
  deriving DecidableEq

inductive Entry where
  | state | fifo | directory
  deriving DecidableEq

structure Disk (B : Type) where
  /-- The directory that the id's path leads to. -/
  path : Option Inode
  dirs : Map Inode Dir
  files : Map Inode (List B)
  /-- The next inode. -/
  inodes : Inode

/-- Writing `data` at position `n`; a gap is filled. -/
def overwrite {B : Type} (nul : B) (content : List B) (n : Nat) (data : List B) : List B :=
  content.take n ++ List.replicate (n - content.length) nul ++ data ++ content.drop (n + data.length)

namespace Disk

variable {B : Type} (d : Disk B)

def here : Option Dir := d.path.bind d.dirs.get

def stateInode : Option Inode := d.here.bind Dir.state

def fifoInode : Option Inode := d.here.bind Dir.fifo

def content (i : Inode) : List B := (d.files.get i).getD []

/-- `create_dir_all` -/
def makeDir : Disk B :=
  match d.path with
  | some _ => d
  | none =>
    { d with
      path := some d.inodes
      dirs := d.dirs.insert d.inodes ⟨none, none⟩
      inodes := d.inodes + 1 }

/-- `File::create` of `state.json` -/
def create : Option (Inode × Disk B) :=
  d.path.bind fun p => (d.dirs.get p).map fun dir => match dir.state with
    | some i => (i, { d with files := d.files.insert i [] })
    | none => (d.inodes, { d with
        dirs := d.dirs.insert p { dir with state := some d.inodes }
        files := d.files.insert d.inodes []
        inodes := d.inodes + 1 })

def write (nul : B) (i : Inode) (n : Nat) (data : List B) : Disk B :=
  { d with files := d.files.insert i (overwrite nul (d.content i) n data) }

/-- `mkfifo`, where there is none. -/
def makeFifo : Option (Disk B) :=
  d.path.bind fun p => (d.dirs.get p).map fun dir => match dir.fifo with
    | some _ => d
    | none => { d with
        dirs := d.dirs.insert p { dir with fifo := some d.inodes }
        inodes := d.inodes + 1 }

def unlink (p : Inode) (e : Entry) : Option (Disk B) :=
  (d.dirs.get p).bind fun dir => match e, dir.state, dir.fifo with
    | .state, some _, _ => some { d with dirs := d.dirs.insert p { dir with state := none } }
    | .fifo, _, some _ => some { d with dirs := d.dirs.insert p { dir with fifo := none } }
    | _, _, _ => none

def removeDir : Except Errno (Disk B) :=
  match d.here with
  | none => .error ENOENT
  | some ⟨none, none⟩ => .ok { d with path := none }
  | some _ => .error ENOTEMPTY

end Disk

/-! ## Processes -/

/-- A container, in the order of spawning, with its init. -/
structure Container where
  index : Nat
  child : Pid
  origin : Origin
  deriving DecidableEq

namespace Container

def mkState (c : Container) (status : Status) (created : String) : ContainerState :=
  Commands.mkState c.origin status c.child none created

end Container

/-- The `write_state`s of a container's keeper: the first of all, when it is started, at its end. -/
inductive Update where
  | first (op : Operation)
  | started | stopped
  deriving DecidableEq

/-- On whose behalf `read_state` is called. -/
inductive Reader where
  | start
  | kill (signal : Except HostError Nat)
  | delete (force : Bool)
  | state | exec | list
  | daemon (c : Container)
  deriving DecidableEq

/-- Where a process is: the call that it makes next. -/
inductive Pc (B : Type) where
  | initDir (op : Operation) (o : Origin)
  | makeFifo (o : Origin)
  | spawn (op : Operation) (o : Origin)
  /-- `File::create` in `write_state` -/
  | createFile (c : Container) (u : Update) (st : ContainerState)
  /-- `write_all`, `n` units of which are written -/
  | writeFile (c : Container) (u : Update) (st : ContainerState) (i : Inode) (n : Nat)
  | daemonOpen (c : Container)
  | daemonRead (c : Container) (fifo : Inode)
  | daemonClose (c : Container) (fifo : Inode)
  | supervise (c : Container) (st : ContainerState)
  | listIds
  | openState (r : Reader)
  | readFile (r : Reader) (i : Inode) (got : List B)
  | startOpen
  | startWrite (fifo : Inode)
  | startClose (fifo : Inode) (result : Except HostError Unit)
  | sendSignal (child : Pid) (sig : Nat)
  | deleteKill (child : Pid)
  | openDir
  | unlink (dir : Inode)
  | done (result : Except HostError Unit)
  deriving DecidableEq

/-- What has been written and read. -/
inductive Event where
  | recorded (c : Container) (u : Update) (i : Inode) (st : ContainerState)
  | readBack (r : Reader) (i : Option Inode) (result : Except StateError ContainerState)
  deriving DecidableEq

structure World (B : Type) where
  procs : Map Process (Pc B)
  disk : Disk B
  fifos : Map Inode (Pipe Process)
  /-- The inits that are not reaped yet, and whether they are alive. -/
  inits : Map Pid Bool
  spawned : Nat
  /-- newest first -/
  history : List Event

/-- How a call comes out, where that is open. -/
structure Outcome where
  child : Pid := 1
  now : String := ""
  /-- How much is read or written. -/
  size : Nat := 1
  code : Int := 0
  entry : Entry := .state

inductive Command where
  | create (o : Origin)
  | run (o : Origin)
  | reads (r : Reader)

inductive Label where
  | begin (p : Process) (cmd : Command)
  | step (p : Process) (o : Outcome)
  | fails (p : Process) (e : Errno)
  /-- An init ends on its own, or by a signal from elsewhere. -/
  | dies (child : Pid)

variable {B : Type} (serde : Serde B)

def Command.start : Command → Option (Pc B)
  | .create o => some (.initDir .create o)
  | .run o => some (.initDir .run o)
  | .reads (.daemon _) => none
  | .reads .list => some .listIds
  | .reads r => some (.openState r)

namespace World

variable (w : World B) (p : Process)

def goto (pc : Pc B) : World B := { w with procs := w.procs.insert p pc }

def record (e : Event) : World B := { w with history := e :: w.history }

/-- The init is gone: reaped, or killed with the process that traces it. -/
def reap (child : Pid) : World B := { w with inits := w.inits.erase child }

def pipe (i : Inode) : Pipe Process := (w.fifos.get i).getD ⟨[], ∅, ∅⟩

def setPipe (i : Inode) (f : Pipe Process) : World B := { w with fifos := w.fifos.insert i f }

/-- `write_state` returns an error, which `supervise_and_finish` ignores. -/
def failUpdate (c : Container) (u : Update) (e : Errno) : World B :=
  match u with
  | .first _ | .started => (w.reap c.child).goto p (.done (.error (.state (.io e))))
  | .stopped => w.goto p (.done (.ok ()))

/-- `write_state` returns. -/
def finishUpdate (c : Container) (u : Update) (st : ContainerState) (i : Inode) : World B :=
  (w.record (.recorded c u i st)).goto p (match u with
    | .first .create => .daemonOpen c
    | .first .run | .started => .supervise c st
    | .stopped => .done (.ok ()))

/-- `read_state` returns. -/
def readBack (r : Reader) (i : Option Inode) (now : String)
    (result : Except StateError ContainerState) : World B :=
  (w.record (.readBack r i result)).goto p (match r, result with
    | .daemon c, .ok st =>
      .createFile c .started { st with status := .running, pid := c.child }
    | .daemon c, .error _ =>
      .createFile c .started { c.mkState .created now with status := .running, pid := c.child }
    | .list, _ => .done (.ok ())
    | _, .error e => .done (.error (.state e))
    | .start, .ok st => if st.status ≠ .created then .done (.error .notCreated) else .startOpen
    | .kill signal, .ok st =>
      if st.pid ≤ 0 then .done (.error .notFound) else
        match signal with
        | .error e => .done (.error e)
        | .ok sig => .sendSignal st.pid sig
    | .delete force, .ok st =>
      if st.status ≠ .stopped ∧ ¬ force then
        .done (.error (.config s!"container '{st.id}' is still running (use --force)"))
      else if force ∧ 0 < st.pid then .deleteKill st.pid
      else .openDir
    | .state, .ok _ => .done (.ok ())
    | .exec, .ok st =>
      if st.pid ≤ 0 ∨ st.status = .stopped then
        .done (.error (.config "container is not running"))
      else .done (.ok ()))

/-- A signal to an init that is not reaped yet. -/
def signal (child : Pid) (sig : Nat) : World B :=
  if sig = SIGKILL ∧ (w.inits.get child).isSome then
    { w with inits := w.inits.insert child false } else w

/-- The call of a process that is at `pc`, if it is not one that waits. -/
def call (o : Outcome) : Pc B → Option (World B)
  | .initDir op origin =>
    some ({ w with disk := w.disk.makeDir }.goto p (match op with
      | .create => .makeFifo origin
      | .run => .spawn .run origin))
  | .makeFifo origin => match w.disk.makeFifo with
    | none => some (w.goto p (.done (.error (.errno "mkfifo" ENOENT))))
    | some disk => some ({ w with disk := disk }.goto p (.spawn .create origin))
  | .spawn op origin =>
    if 0 < o.child ∧ w.inits.get o.child = none then
      let c : Container := ⟨w.spawned, o.child, origin⟩
      some ({ w with
        inits := w.inits.insert o.child true
        spawned := w.spawned + 1 }.goto p (.createFile c (.first op)
          (c.mkState (if op = Operation.run then .running else .created) o.now)))
    else none
  | .createFile c u st => match w.disk.create with
    | none => some (w.failUpdate p c u ENOENT)
    | some (i, disk) => some ({ w with disk := disk }.goto p (.writeFile c u st i 0))
  | .writeFile c u st i n =>
    let text := serde.toStringPretty st
    let data := (text.drop n).take o.size
    if o.size = 0 then none else
    let t := { w with disk := w.disk.write serde.nul i n data }
    some (if text.length ≤ n + o.size then t.finishUpdate p c u st i
      else t.goto p (.writeFile c u st i (n + o.size)))
  | .daemonOpen c => match w.disk.fifoInode with
    | none => some ((w.reap c.child).goto p (.done (.error (.io ENOENT))))
    | some i => some ((w.setPipe i ((w.pipe i).openedBy p)).goto p (.daemonRead c i))
  | .daemonRead c i => ((w.pipe i).read BUFFER).map fun r =>
      (w.setPipe i r.2).goto p (.daemonClose c i)
  | .daemonClose c i =>
    some ((w.setPipe i ((w.pipe i).closedBy p)).goto p (.openState (.daemon c)))
  -- `supervise` returns a code once the init is dead.
  | .supervise c st =>
    if w.inits.get c.child = some false then
      some ((w.reap c.child).goto p
        (.createFile c .stopped { st with status := .stopped, exitCode := some o.code }))
    else none
  | .listIds => some (w.goto p
      (if w.disk.stateInode.isSome then .openState .list else .done (.ok ())))
  | .openState r => match w.disk.stateInode with
    | none => some (w.readBack p r none o.now (.error .missing))
    | some i => some (w.goto p (.readFile r i []))
  | .readFile r i got =>
    let data := ((w.disk.content i).drop got.length).take o.size
    if o.size = 0 then none
    else if data = [] then some (w.readBack p r (some i) o.now (serde.fromStr got))
    else some (w.goto p (.readFile r i (got ++ data)))
  | .startOpen => match w.disk.fifoInode with
    | none => some (w.goto p (.done (.error (.io ENOENT))))
    | some i => some ((w.setPipe i ((w.pipe i).openedBy p)).goto p (.startWrite i))
  | .startWrite i => ((w.pipe i).write [0x78]).map fun f =>
      (w.setPipe i f).goto p (.startClose i (.ok ()))
  | .startClose i result =>
    some ((w.setPipe i ((w.pipe i).closedBy p)).goto p (.done result))
  | .sendSignal child sig =>
    some ((w.signal child sig).goto p (.done
      (if (w.inits.get child).isSome then .ok () else .error (.errno "kill" ESRCH))))
  | .deleteKill child => some ((w.signal child SIGKILL).goto p .openDir)
  | .openDir => match w.disk.path with
    | none => some (w.goto p (.done (.error (.state (.io ENOENT)))))
    | some d => some (w.goto p (.unlink d))
  | .unlink d =>
    if o.entry = .directory then
      match w.disk.removeDir with
      | .error e => some (w.goto p (.done (.error (.state (.io e)))))
      | .ok disk => some ({ w with disk := disk }.goto p (.done (.ok ())))
    else (w.disk.unlink d o.entry).map fun disk => { w with disk := disk }.goto p (.unlink d)
  | .done _ => none

/-- The call fails; a result that is not looked at is not. -/
def failCall (e : Errno) : Pc B → Option (World B)
  | .initDir _ _ => some (w.goto p (.done (.error (.io e))))
  | .makeFifo _ => some (w.goto p (.done (.error (.errno "mkfifo" e))))
  | .spawn _ _ => some (w.goto p (.done (.error (.clone e))))
  | .createFile c u _ | .writeFile c u _ _ _ => some (w.failUpdate p c u e)
  | .daemonOpen c => some ((w.reap c.child).goto p (.done (.error (.io e))))
  | .daemonRead c i => some (w.goto p (.daemonClose c i))
  | .supervise c _ =>
    some ((w.reap c.child).goto p (.done (.error (.supervise (.ptrace e)))))
  | .listIds => some (w.goto p (.done (.ok ())))
  | .openState r => some (w.readBack p r none "" (.error (.io e)))
  | .readFile r i _ => some (w.readBack p r (some i) "" (.error (.io e)))
  | .startOpen => some (w.goto p (.done (.error (.io e))))
  | .startWrite i => some (w.goto p (.startClose i (.error (.io e))))
  | .sendSignal _ _ => some (w.goto p (.done (.error (.errno "kill" e))))
  | .deleteKill _ => some (w.goto p .openDir)
  | .openDir | .unlink _ => some (w.goto p (.done (.error (.state (.io e)))))
  | .daemonClose _ _ | .startClose _ _ | .done _ => none

def step : Label → Option (World B)
  | .begin p cmd =>
    if w.procs.get p = none then cmd.start.map (w.goto p) else none
  | .step p o => (w.procs.get p).bind (w.call serde p o)
  | .fails p e => if e = ENOENT then none else (w.procs.get p).bind (w.failCall p e)
  | .dies child =>
    if w.inits.get child = some true then
      some { w with inits := w.inits.insert child false } else none

def empty : World B where
  procs := ∅
  disk := ⟨none, ∅, ∅, 0⟩
  fifos := ∅
  inits := ∅
  spawned := 0
  history := []

end World

def system : System (World B) Label where
  init w := w = .empty
  step w := w.step serde

/-! ## What a call does to the disk -/

theorem overwrite_take (nul : B) (text : List B) {n : Nat} (k : Nat) (h : n ≤ text.length) :
    overwrite nul (text.take n) n ((text.drop n).take k) = text.take (n + k) := by
  have hLength : (text.take n).length = n := by simp [h]
  have hDrop : (text.take n).drop (n + ((text.drop n).take k).length) = [] :=
    List.drop_eq_nil_of_le (by omega)
  rw [overwrite, hLength, hDrop, List.take_take]
  simp [List.take_add]

namespace Disk

variable {d d' : Disk B} {i j p : Inode}

theorem here_insertDir {dir : Dir} (hPath : d'.path = some p)
    (hDirs : d'.dirs = d.dirs.insert p dir) : d'.here = some dir := by
  rw [here, hPath, hDirs]
  exact Map.get_insert_self _ _ _

theorem stateInode_eq_some :
    d.stateInode = some i ↔
      ∃ p dir, d.path = some p ∧ d.dirs.get p = some dir ∧ dir.state = some i := by
  simp only [stateInode, here, Option.bind_eq_some_iff]
  constructor
  · rintro ⟨dir, ⟨p, hPath, hDir⟩, hState⟩
    exact ⟨p, dir, hPath, hDir, hState⟩
  · rintro ⟨p, dir, hPath, hDir, hState⟩
    exact ⟨dir, ⟨p, hPath, hDir⟩, hState⟩

theorem create_cases (h : d.create = some (i, d')) :
    ∃ p dir, d.path = some p ∧ d.dirs.get p = some dir ∧
      ((dir.state = some i ∧ d' = { d with files := d.files.insert i [] }) ∨
        (dir.state = none ∧ i = d.inodes ∧ d' = { d with
          dirs := d.dirs.insert p { dir with state := some d.inodes }
          files := d.files.insert d.inodes []
          inodes := d.inodes + 1 })) := by
  obtain ⟨p, hPath, hRest⟩ := Option.bind_eq_some_iff.mp h
  obtain ⟨dir, hDir, hEq⟩ := Option.map_eq_some_iff.mp hRest
  refine ⟨p, dir, hPath, hDir, ?_⟩
  split at hEq
  · rename_i hState
    cases hEq
    exact .inl ⟨hState, rfl⟩
  · rename_i hState
    cases hEq
    exact .inr ⟨hState, rfl, rfl⟩

theorem create_stateInode (h : d.create = some (i, d')) : d'.stateInode = some i := by
  obtain ⟨p, dir, hPath, hDir, ⟨hState, rfl⟩ | ⟨_, rfl, rfl⟩⟩ := create_cases h
  · exact stateInode_eq_some.mpr ⟨p, dir, hPath, hDir, hState⟩
  · exact stateInode_eq_some.mpr ⟨p, _, hPath, Map.get_insert_self _ _ _, rfl⟩

theorem makeFifo_cases (h : d.makeFifo = some d') :
    ∃ p dir, d.path = some p ∧ d.dirs.get p = some dir ∧
      ((dir.fifo.isSome ∧ d' = d) ∨
        (dir.fifo = none ∧ d' = { d with
          dirs := d.dirs.insert p { dir with fifo := some d.inodes }
          inodes := d.inodes + 1 })) := by
  obtain ⟨p, hPath, hRest⟩ := Option.bind_eq_some_iff.mp h
  obtain ⟨dir, hDir, hEq⟩ := Option.map_eq_some_iff.mp hRest
  refine ⟨p, dir, hPath, hDir, ?_⟩
  split at hEq
  · rename_i hFifo
    exact .inl ⟨by rw [hFifo]; rfl, hEq.symm⟩
  · rename_i hFifo
    exact .inr ⟨hFifo, hEq.symm⟩

theorem unlink_cases {e : Entry} (h : d.unlink p e = some d') :
    ∃ dir dir', d.dirs.get p = some dir ∧ d' = { d with dirs := d.dirs.insert p dir' } ∧
      ((e = .state ∧ dir' = { dir with state := none }) ∨
        (e = .fifo ∧ dir' = { dir with fifo := none })) := by
  obtain ⟨dir, hDir, hEq⟩ := Option.bind_eq_some_iff.mp h
  split at hEq
  · cases hEq
    exact ⟨dir, _, hDir, rfl, .inl ⟨rfl, rfl⟩⟩
  · cases hEq
    exact ⟨dir, _, hDir, rfl, .inr ⟨rfl, rfl⟩⟩
  · cases hEq

theorem removeDir_cases (h : d.removeDir = .ok d') :
    d.here = some ⟨none, none⟩ ∧ d' = { d with path := none } := by
  unfold removeDir at h
  split at h
  · cases h
  · rename_i hHere
    cases h
    exact ⟨hHere, rfl⟩
  · cases h

structure Sound (d : Disk B) : Prop where
  bound : ∀ i, (d.files.get i).isSome → i < d.inodes
  linked : ∀ p dir i, d.dirs.get p = some dir → dir.state = some i → (d.files.get i).isSome

namespace Sound

theorem empty : Sound (⟨none, ∅, ∅, 0⟩ : Disk B) where
  bound i h := by cases h
  linked p dir i h := by cases h

theorem dirs (h : Sound d) (hFiles : d'.files = d.files) (hInodes : d.inodes ≤ d'.inodes)
    (hDirs : ∀ p dir i, d'.dirs.get p = some dir → dir.state = some i →
      ∃ p₀ dir₀, d.dirs.get p₀ = some dir₀ ∧ dir₀.state = some i) : Sound d' where
  bound i hFile := Nat.lt_of_lt_of_le (h.bound i (hFiles ▸ hFile)) hInodes
  linked p dir i hDir hState := by
    obtain ⟨p₀, dir₀, hDir₀, hState₀⟩ := hDirs p dir i hDir hState
    rw [hFiles]
    exact h.linked p₀ dir₀ i hDir₀ hState₀

theorem insertDir (h : Sound d) {dir₁ : Dir} {n : Nat} (hInodes : d.inodes ≤ n)
    (hDir₁ : ∀ i, dir₁.state = some i → ∃ dir₀, d.dirs.get p = some dir₀ ∧ dir₀.state = some i) :
    Sound { d with dirs := d.dirs.insert p dir₁, inodes := n } := by
  refine h.dirs rfl hInodes fun p' dir i hDir hState => ?_
  rw [Map.get_insert] at hDir
  split at hDir
  · cases hDir
    obtain ⟨dir₀, hOld⟩ := hDir₁ i hState
    exact ⟨p, dir₀, hOld⟩
  · exact ⟨p', dir, hDir, hState⟩

theorem makeDir (h : Sound d) : Sound d.makeDir := by
  unfold Disk.makeDir
  split
  · exact h
  · have hNew : Sound { d with
        dirs := d.dirs.insert d.inodes ⟨none, none⟩
        inodes := d.inodes + 1 } := h.insertDir (Nat.le_succ _) nofun
    exact ⟨hNew.bound, hNew.linked⟩

theorem makeFifo (h : Sound d) (hFifo : d.makeFifo = some d') : Sound d' := by
  obtain ⟨p, dir, _, hDir, ⟨_, rfl⟩ | ⟨_, rfl⟩⟩ := makeFifo_cases hFifo
  · exact h
  · exact h.insertDir (Nat.le_succ _) fun i hState => ⟨dir, hDir, hState⟩

theorem unlink (h : Sound d) {e : Entry} (hUnlink : d.unlink p e = some d') : Sound d' := by
  obtain ⟨dir, dir', hDir, rfl, hEntry⟩ := unlink_cases hUnlink
  refine h.insertDir (Nat.le_refl _) fun i hState => ?_
  rcases hEntry with ⟨_, rfl⟩ | ⟨_, rfl⟩
  · cases hState
  · exact ⟨dir, hDir, hState⟩

theorem removeDir (h : Sound d) (hRemove : d.removeDir = .ok d') : Sound d' := by
  obtain ⟨_, rfl⟩ := removeDir_cases hRemove
  exact ⟨h.bound, h.linked⟩

theorem files (h : Sound d) {i : Inode} (hFile : (d.files.get i).isSome) (content : List B) :
    Sound { d with files := d.files.insert i content } where
  bound j hj := by
    simp only [Map.get_insert] at hj
    split at hj
    · rename_i hEq
      exact hEq ▸ h.bound i hFile
    · exact h.bound j hj
  linked p dir j hDir hState := by
    simp only [Map.get_insert]
    split
    · rfl
    · exact h.linked p dir j hDir hState

theorem create (h : Sound d) (hCreate : d.create = some (i, d')) : Sound d' := by
  obtain ⟨p, dir, _, hDir, ⟨hState, rfl⟩ | ⟨_, rfl, rfl⟩⟩ := create_cases hCreate
  · exact h.files (h.linked p dir i hDir hState) []
  · constructor
    · intro j hj
      simp only [Map.get_insert] at hj
      split at hj
      · rename_i hEq
        exact hEq ▸ Nat.lt_succ_self _
      · exact Nat.lt_succ_of_lt (h.bound j hj)
    · intro p' dir' j hDir' hState'
      simp only [Map.get_insert] at hDir' ⊢
      split at hDir'
      · cases hDir'
        cases hState'
        simp
      · split
        · rfl
        · exact h.linked p' dir' j hDir' hState'

end Sound

theorem content_of_get {content : List B} (h : d.files.get i = some content) :
    d.content i = content := by
  rw [Disk.content, h]
  rfl

structure Renamed (d d' : Disk B) : Prop where
  files : d'.files = d.files
  inodes : d.inodes ≤ d'.inodes
  state : ∀ i, d'.stateInode = some i → d.stateInode = some i
  fifo : ∀ i, d'.fifoInode = some i → d.fifoInode = some i ∨ d.inodes ≤ i

namespace Renamed

theorem refl (d : Disk B) : Renamed d d := ⟨rfl, Nat.le_refl _, fun _ => id, fun _ => .inl⟩

theorem makeDir (d : Disk B) : Renamed d d.makeDir := by
  unfold Disk.makeDir
  split
  · exact refl d
  · refine ⟨rfl, Nat.le_succ _, fun i hState => ?_, fun i hFifo => ?_⟩
    · simp [stateInode, here] at hState
    · simp [fifoInode, here] at hFifo

theorem makeFifo (h : d.makeFifo = some d') : Renamed d d' := by
  obtain ⟨p, dir, hPath, hDir, ⟨_, rfl⟩ | ⟨_, rfl⟩⟩ := makeFifo_cases h
  · exact refl _
  · refine ⟨rfl, Nat.le_succ _, fun i hState => ?_, fun i hFifo => .inr ?_⟩
    · simpa [stateInode, here, hPath, hDir] using hState
    · simp only [fifoInode, here, hPath, Option.bind_some, Map.get_insert_self] at hFifo
      exact Nat.le_of_eq (Option.some.inj hFifo)

theorem unlink {e : Entry} (h : d.unlink p e = some d') : Renamed d d' := by
  obtain ⟨dir, dir', hDir, rfl, hEntry⟩ := unlink_cases h
  have hHere (dir₁ : Dir) (hDir₁ : Disk.here { d with dirs := d.dirs.insert p dir' } = some dir₁) :
      d.here = some dir₁ ∨ d.here = some dir ∧ dir₁ = dir' := by
    obtain ⟨q, hPath, hGet⟩ := Option.bind_eq_some_iff.mp hDir₁
    rw [Map.get_insert] at hGet
    split at hGet
    · rename_i hEq
      subst hEq
      cases hGet
      exact .inr ⟨by rw [here, hPath]; exact hDir, rfl⟩
    · exact .inl (by rw [here, hPath]; exact hGet)
  refine ⟨rfl, Nat.le_refl _, fun i hState => ?_, fun i hFifo => .inl ?_⟩
  · obtain ⟨dir₁, hDir₁, hName⟩ := Option.bind_eq_some_iff.mp hState
    rcases hHere dir₁ hDir₁ with hSame | ⟨hOld, rfl⟩
    · exact Option.bind_eq_some_iff.mpr ⟨dir₁, hSame, hName⟩
    · rcases hEntry with ⟨_, rfl⟩ | ⟨_, rfl⟩
      · cases hName
      · exact Option.bind_eq_some_iff.mpr ⟨dir, hOld, hName⟩
  · obtain ⟨dir₁, hDir₁, hName⟩ := Option.bind_eq_some_iff.mp hFifo
    rcases hHere dir₁ hDir₁ with hSame | ⟨hOld, rfl⟩
    · exact Option.bind_eq_some_iff.mpr ⟨dir₁, hSame, hName⟩
    · rcases hEntry with ⟨_, rfl⟩ | ⟨_, rfl⟩
      · exact Option.bind_eq_some_iff.mpr ⟨dir, hOld, hName⟩
      · cases hName

theorem removeDir (h : d.removeDir = .ok d') : Renamed d d' := by
  obtain ⟨_, rfl⟩ := removeDir_cases h
  exact ⟨rfl, Nat.le_refl _, nofun, nofun⟩

end Renamed

theorem create_fifoInode (h : d.create = some (i, d')) : d'.fifoInode = d.fifoInode := by
  obtain ⟨p, dir, hPath, hDir, ⟨_, rfl⟩ | ⟨_, rfl, rfl⟩⟩ := create_cases h
  · rfl
  · simp [fifoInode, here, hPath, hDir]

theorem create_files (h : d.create = some (i, d')) : d'.files = d.files.insert i [] := by
  obtain ⟨p, dir, _, _, ⟨_, rfl⟩ | ⟨_, rfl, rfl⟩⟩ := create_cases h
  · rfl
  · rfl

theorem create_inodes (h : d.create = some (i, d')) : d.inodes ≤ d'.inodes := by
  obtain ⟨p, dir, _, _, ⟨_, rfl⟩ | ⟨_, rfl, rfl⟩⟩ := create_cases h
  · exact Nat.le_refl _
  · exact Nat.le_succ _

theorem unlink_stateInode {e : Entry} (h : d.unlink p e = some d') (hEntry : e ≠ .state) :
    d'.stateInode = d.stateInode := by
  obtain ⟨dir, dir', hDir, rfl, ⟨hState, _⟩ | ⟨_, rfl⟩⟩ := unlink_cases h
  · exact absurd hState hEntry
  · simp only [stateInode, here]
    cases d.path with
    | none => rfl
    | some q =>
      simp only [Option.bind_some, Map.get_insert]
      split
      · rename_i hEq
        simp [hEq, hDir]
      · rfl

theorem unlink_fifoInode {e : Entry} (h : d.unlink p e = some d') (hEntry : e ≠ .fifo) :
    d'.fifoInode = d.fifoInode := by
  obtain ⟨dir, dir', hDir, rfl, ⟨_, rfl⟩ | ⟨hFifo, _⟩⟩ := unlink_cases h
  · simp only [fifoInode, here]
    cases d.path with
    | none => rfl
    | some q =>
      simp only [Option.bind_some, Map.get_insert]
      split
      · rename_i hEq
        simp [hEq, hDir]
      · rfl
  · exact absurd hFifo hEntry

end Disk

/-! ## What a call leaves alone -/

def Pc.writes : Pc B → Option Inode
  | .writeFile _ _ _ i _ => some i
  | _ => none

def Pc.reads : Pc B → Option Inode
  | .readFile _ i _ => some i
  | _ => none

/-- Calls that do nothing to the disk and read nothing from it. -/
def Pc.apart : Pc B → Bool
  | .initDir _ _ | .makeFifo _ | .spawn _ _ | .createFile _ _ _ | .writeFile _ _ _ _ _
  | .openState _ | .readFile _ _ _ | .unlink _ => false
  | _ => true

namespace World

variable {serde} {w t : World B} {p q : Process} {pc pc' : Pc B}

@[simp] theorem goto_disk : (w.goto p pc).disk = w.disk := rfl
@[simp] theorem goto_history : (w.goto p pc).history = w.history := rfl
@[simp] theorem goto_spawned : (w.goto p pc).spawned = w.spawned := rfl
@[simp] theorem goto_inits : (w.goto p pc).inits = w.inits := rfl
@[simp] theorem goto_fifos : (w.goto p pc).fifos = w.fifos := rfl
@[simp] theorem goto_self : (w.goto p pc).procs.get p = some pc := Map.get_insert_self _ _ _

@[simp] theorem signal_disk {child : Pid} {sig : Nat} : (w.signal child sig).disk = w.disk := by
  unfold signal
  split <;> rfl

@[simp] theorem signal_history {child : Pid} {sig : Nat} :
    (w.signal child sig).history = w.history := by
  unfold signal
  split <;> rfl

@[simp] theorem signal_spawned {child : Pid} {sig : Nat} :
    (w.signal child sig).spawned = w.spawned := by
  unfold signal
  split <;> rfl

@[simp] theorem signal_procs {child : Pid} {sig : Nat} : (w.signal child sig).procs = w.procs := by
  unfold signal
  split <;> rfl

@[simp] theorem signal_fifos {child : Pid} {sig : Nat} : (w.signal child sig).fifos = w.fifos := by
  unfold signal
  split <;> rfl

/-- `p` makes a call and goes on at `pc`; the disk and the history stay. -/
structure Moves (w t : World B) (p : Process) (pc : Pc B) : Prop where
  procs : t.procs = w.procs.insert p pc
  disk : t.disk = w.disk
  history : t.history = w.history
  spawned : t.spawned = w.spawned

theorem failUpdate_moves (c : Container) (u : Update) (e : Errno) :
    ∃ result, Moves w (w.failUpdate p c u e) p (.done result) := by
  cases u with
  | first op | started | stopped => exact ⟨_, rfl, rfl, rfl, rfl⟩

theorem signal_moves (child : Pid) (sig : Nat) (pc : Pc B) :
    Moves w ((w.signal child sig).goto p pc) p pc :=
  ⟨by rw [goto, signal_procs], by simp, by simp, by simp⟩

theorem call_apart {o : Outcome} (h : w.call serde p o pc = some t) (hApart : pc.apart = true) :
    ∃ pc', Moves w t p pc' ∧ pc'.writes = none ∧ pc'.reads = none := by
  cases pc with
  | initDir op o | makeFifo o | spawn op o | createFile c u st | writeFile c u st i n
  | openState r | readFile r i got | unlink d => cases hApart
  | daemonOpen c | startOpen =>
    simp only [call] at h
    split at h
    · cases h
      exact ⟨_, ⟨rfl, rfl, rfl, rfl⟩, rfl, rfl⟩
    · cases h
      exact ⟨_, ⟨rfl, rfl, rfl, rfl⟩, rfl, rfl⟩
  | daemonRead c i | startWrite i =>
    obtain ⟨_, _, rfl⟩ := Option.map_eq_some_iff.mp h
    exact ⟨_, ⟨rfl, rfl, rfl, rfl⟩, rfl, rfl⟩
  | daemonClose c i | startClose i result =>
    cases h
    exact ⟨_, ⟨rfl, rfl, rfl, rfl⟩, rfl, rfl⟩
  | supervise c st =>
    simp only [call] at h
    split at h
    · cases h
      exact ⟨_, ⟨rfl, rfl, rfl, rfl⟩, rfl, rfl⟩
    · cases h
  | listIds =>
    cases h
    refine ⟨_, ⟨rfl, rfl, rfl, rfl⟩, ?_⟩
    split <;> exact ⟨rfl, rfl⟩
  | sendSignal child sig | deleteKill child =>
    cases h
    exact ⟨_, signal_moves _ _ _, rfl, rfl⟩
  | openDir =>
    simp only [call] at h
    split at h
    · cases h
      exact ⟨_, ⟨rfl, rfl, rfl, rfl⟩, rfl, rfl⟩
    · cases h
      exact ⟨_, ⟨rfl, rfl, rfl, rfl⟩, rfl, rfl⟩
  | done result => cases h

theorem readBack_goes {P : Pc B → Prop} {r : Reader} (hDone : ∀ result, P (.done result))
    (hCreate : ∀ c st, r = .daemon c → P (.createFile c .started st)) (hStart : P .startOpen)
    (hSend : ∀ child sig, P (.sendSignal child sig)) (hKill : ∀ child, P (.deleteKill child))
    (hDir : P .openDir) (i : Option Inode) (now : String)
    (result : Except StateError ContainerState) :
    ∃ pc', P pc' ∧ w.readBack p r i now result = (w.record (.readBack r i result)).goto p pc' := by
  refine ⟨_, ?_, rfl⟩
  split
  · exact hCreate _ _ rfl
  · exact hCreate _ _ rfl
  · exact hDone _
  · exact hDone _
  · split
    · exact hDone _
    · exact hStart
  · split
    · exact hDone _
    · split
      · exact hDone _
      · exact hSend _ _
  · split
    · exact hDone _
    · split
      · exact hKill _
      · exact hDir
  · exact hDone _
  · split
    · exact hDone _
    · exact hDone _

theorem readBack_moves (r : Reader) (i : Option Inode) (now : String)
    (result : Except StateError ContainerState) :
    ∃ pc', Moves (w.record (.readBack r i result)) (w.readBack p r i now result) p pc' ∧
      pc'.writes = none ∧ pc'.reads = none := by
  obtain ⟨pc', hPlain, hEq⟩ := readBack_goes (w := w) (p := p) (r := r)
    (P := fun pc => pc.writes = none ∧ pc.reads = none) (fun _ => ⟨rfl, rfl⟩)
    (fun _ _ _ => ⟨rfl, rfl⟩) ⟨rfl, rfl⟩ (fun _ _ => ⟨rfl, rfl⟩) (fun _ => ⟨rfl, rfl⟩) ⟨rfl, rfl⟩
    i now result
  exact ⟨pc', by rw [hEq]; exact ⟨rfl, rfl, rfl, rfl⟩, hPlain⟩

theorem failCall_moves {e : Errno} (h : w.failCall p e pc = some t) :
    ∃ pc', (Moves w t p pc' ∨ ∃ r i, Moves (w.record (.readBack r i (.error (.io e)))) t p pc') ∧
      pc'.writes = none ∧ pc'.reads = none := by
  cases pc with
  | createFile c u st | writeFile c u st i n =>
    cases h
    obtain ⟨_, hMoves⟩ := failUpdate_moves (w := w) (p := p) c u e
    exact ⟨_, .inl hMoves, rfl, rfl⟩
  | openState r =>
    cases h
    obtain ⟨pc', hMoves, hPlain⟩ := readBack_moves (w := w) (p := p) r none "" (.error (.io e))
    exact ⟨pc', .inr ⟨_, _, hMoves⟩, hPlain⟩
  | readFile r i got =>
    cases h
    obtain ⟨pc', hMoves, hPlain⟩ := readBack_moves (w := w) (p := p) r (some i) "" (.error (.io e))
    exact ⟨pc', .inr ⟨_, _, hMoves⟩, hPlain⟩
  | daemonClose c i | startClose i result | done result => cases h
  | initDir op o | makeFifo o | spawn op o | daemonOpen c | daemonRead c i | supervise c st
  | listIds | startOpen | startWrite i | sendSignal child sig | deleteKill child | openDir
  | unlink d =>
    cases h
    exact ⟨_, .inl ⟨rfl, rfl, rfl, rfl⟩, rfl, rfl⟩

theorem step_cases {l : Label} (h : w.step serde l = some t) :
    (∃ p cmd pc, l = .begin p cmd ∧ w.procs.get p = none ∧ cmd.start = some pc ∧
      t = w.goto p pc) ∨
    (∃ p o pc, l = .step p o ∧ w.procs.get p = some pc ∧ w.call serde p o pc = some t) ∨
    (∃ p e pc, l = .fails p e ∧ e ≠ ENOENT ∧ w.procs.get p = some pc ∧
      w.failCall p e pc = some t) ∨
    ∃ child, l = .dies child ∧ w.inits.get child = some true ∧
      t = { w with inits := w.inits.insert child false } := by
  cases l with
  | begin p cmd =>
    simp only [step] at h
    split at h
    · rename_i hFree
      obtain ⟨pc, hStart, rfl⟩ := Option.map_eq_some_iff.mp h
      exact .inl ⟨p, cmd, pc, rfl, hFree, hStart, rfl⟩
    · cases h
  | step p o =>
    obtain ⟨pc, hPc, hCall⟩ := Option.bind_eq_some_iff.mp h
    exact .inr (.inl ⟨p, o, pc, rfl, hPc, hCall⟩)
  | fails p e =>
    simp only [step] at h
    split at h
    · cases h
    · rename_i hErrno
      obtain ⟨pc, hPc, hCall⟩ := Option.bind_eq_some_iff.mp h
      exact .inr (.inr (.inl ⟨p, e, pc, rfl, hErrno, hPc, hCall⟩))
  | dies child =>
    simp only [step] at h
    split at h
    · cases h
      exact .inr (.inr (.inr ⟨child, rfl, ‹_›, rfl⟩))
    · cases h

end World

/-! ## What clients do -/

def Pc.client : Pc B → Bool
  | .openState (.daemon _) | .readFile (.daemon _) _ _ => false
  | .listIds | .openState _ | .readFile _ _ _ | .startOpen | .startWrite _ | .startClose _ _
  | .sendSignal _ _ | .deleteKill _ | .openDir | .unlink _ | .done _ => true
  | _ => false

/-- The init that is sent a SIGKILL next. -/
def Pc.kills : Pc B → Option Pid
  | .sendSignal child sig => if sig = SIGKILL then some child else none
  | .deleteKill child => some child
  | _ => none

namespace World

variable {serde} {w t : World B} {p : Process} {pc pc' : Pc B} {i : Inode}

@[simp] theorem goto_pipe : (w.goto p pc).pipe i = w.pipe i := rfl
@[simp] theorem record_pipe {e : Event} : (w.record e).pipe i = w.pipe i := rfl
@[simp] theorem reap_pipe {child : Pid} : (w.reap child).pipe i = w.pipe i := rfl

@[simp] theorem setPipe_pipe {f : Pipe Process} : (w.setPipe i f).pipe i = f := by
  simp [pipe, setPipe]

theorem setPipe_pipe_ne {f : Pipe Process} {j : Inode} (h : j ≠ i) :
    (w.setPipe i f).pipe j = w.pipe j := by
  simp [pipe, setPipe, Map.get_insert_ne _ _ h]

@[simp] theorem signal_pipe {child : Pid} {sig : Nat} : (w.signal child sig).pipe i = w.pipe i := by
  rw [pipe, signal_fifos, pipe]

theorem signal_inits (child : Pid) (sig : Nat) :
    (w.signal child sig).inits = w.inits ∨
      sig = SIGKILL ∧ (w.signal child sig).inits = w.inits.insert child false := by
  unfold signal
  split
  · rename_i hKills
    exact .inr ⟨hKills.1, rfl⟩
  · exact .inl rfl

theorem failUpdate_pipe (c : Container) (u : Update) (e : Errno) :
    (w.failUpdate p c u e).pipe i = w.pipe i := by
  cases u with
  | first op | started | stopped => rfl

/-- What a call may do to a FIFO. -/
theorem call_pipe {o : Outcome} (h : w.call serde p o pc = some t) (i : Inode) :
    t.pipe i = w.pipe i ∨ t.pipe i = (w.pipe i).openedBy p ∨ t.pipe i = (w.pipe i).closedBy p ∨
      (pc = .startWrite i ∧ (w.pipe i).write [0x78] = some (t.pipe i)) ∨
      ∃ c data, pc = .daemonRead c i ∧ (w.pipe i).read BUFFER = some (data, t.pipe i) := by
  have other {j : Inode} {f : Pipe Process} {pc' : Pc B} (hj : i ≠ j) :
      ((w.setPipe j f).goto p pc').pipe i = w.pipe i := setPipe_pipe_ne hj
  cases pc with
  | initDir op origin | daemonClose c j | startClose j result | deleteKill child | listIds
  | sendSignal child sig =>
    cases h
    first
    | exact .inl rfl
    | exact .inl signal_pipe
    | by_cases hj : i = j
      · subst hj
        exact .inr (.inr (.inl setPipe_pipe))
      · exact .inl (other hj)
  | makeFifo origin =>
    simp only [call] at h
    split at h <;> cases h <;> exact .inl rfl
  | spawn op origin =>
    simp only [call] at h
    split at h
    · cases h
      exact .inl rfl
    · cases h
  | createFile c u st =>
    simp only [call] at h
    split at h
    · cases h
      exact .inl (failUpdate_pipe c u _)
    · cases h
      exact .inl rfl
  | writeFile c u st j n =>
    simp only [call] at h
    split at h
    · cases h
    · cases h
      split <;> exact .inl rfl
  | daemonOpen c | startOpen =>
    simp only [call] at h
    split at h
    · cases h
      exact .inl rfl
    · rename_i j _
      cases h
      by_cases hj : i = j
      · subst hj
        exact .inr (.inl setPipe_pipe)
      · exact .inl (other hj)
  | daemonRead c j =>
    obtain ⟨⟨data, f⟩, hRead, rfl⟩ := Option.map_eq_some_iff.mp h
    by_cases hj : i = j
    · subst hj
      refine .inr (.inr (.inr (.inr ⟨c, data, rfl, ?_⟩)))
      rw [goto_pipe, setPipe_pipe]
      exact hRead
    · exact .inl (other hj)
  | startWrite j =>
    obtain ⟨f, hWrite, rfl⟩ := Option.map_eq_some_iff.mp h
    by_cases hj : i = j
    · subst hj
      refine .inr (.inr (.inr (.inl ⟨rfl, ?_⟩)))
      rw [goto_pipe, setPipe_pipe]
      exact hWrite
    · exact .inl (other hj)
  | supervise c st =>
    simp only [call] at h
    split at h
    · cases h
      exact .inl rfl
    · cases h
  | openState r =>
    simp only [call] at h
    split at h <;> cases h <;> exact .inl rfl
  | readFile r j got =>
    simp only [call] at h
    split at h
    · cases h
    · split at h <;> cases h <;> exact .inl rfl
  | openDir =>
    simp only [call] at h
    split at h <;> cases h <;> exact .inl rfl
  | unlink d =>
    simp only [call] at h
    split at h
    · split at h <;> cases h <;> exact .inl rfl
    · obtain ⟨_, _, rfl⟩ := Option.map_eq_some_iff.mp h
      exact .inl rfl
  | done result => cases h

theorem failCall_pipe {e : Errno} (h : w.failCall p e pc = some t) (i : Inode) :
    t.pipe i = w.pipe i := by
  cases pc with
  | createFile c u st | writeFile c u st j n =>
    cases h
    exact failUpdate_pipe c u e
  | daemonClose c j | startClose j result | done result => cases h
  | initDir op o | makeFifo o | spawn op o | daemonOpen c | daemonRead c j | supervise c st
  | listIds | openState r | readFile r j got | startOpen | startWrite j | sendSignal child sig
  | deleteKill child | openDir | unlink d =>
    cases h
    rfl

/-- A client makes a call: it writes no record, and only names go and inits are killed. -/
structure ByClient (w t : World B) (p : Process) (pc pc' : Pc B) : Prop where
  client : pc'.client = true
  procs : t.procs = w.procs.insert p pc'
  renamed : w.disk.Renamed t.disk
  history : t.history = w.history ∨ ∃ r i result, t.history = .readBack r i result :: w.history
  spawned : t.spawned = w.spawned
  inits : t.inits = w.inits ∨ ∃ child, pc.kills = some child ∧ t.inits = w.inits.insert child false

theorem ByClient.plain (hClient : pc'.client = true) : ByClient w (w.goto p pc') p pc pc' :=
  ⟨hClient, rfl, .refl _, .inl rfl, rfl, .inl rfl⟩

theorem ByClient.setPipe {f : Pipe Process} (hClient : pc'.client = true) :
    ByClient w ((w.setPipe i f).goto p pc') p pc pc' :=
  ⟨hClient, rfl, .refl _, .inl rfl, rfl, .inl rfl⟩

theorem ByClient.names {disk : Disk B} (hClient : pc'.client = true)
    (hRenamed : w.disk.Renamed disk) :
    ByClient w ({ w with disk := disk }.goto p pc') p pc pc' :=
  ⟨hClient, rfl, hRenamed, .inl rfl, rfl, .inl rfl⟩

theorem readBack_client {r : Reader} (h : ∀ c, r ≠ .daemon c) (i : Option Inode) (now : String)
    (result : Except StateError ContainerState) :
    ∃ pc', ByClient w (w.readBack p r i now result) p pc pc' := by
  obtain ⟨pc', hClient, hEq⟩ := readBack_goes (w := w) (p := p) (P := fun pc => pc.client = true)
    (fun _ => rfl) (fun c _ hDaemon => absurd hDaemon (h c)) rfl (fun _ _ => rfl) (fun _ => rfl) rfl
    i now result
  rw [hEq]
  exact ⟨pc', hClient, rfl, .refl _, .inr ⟨r, i, result, rfl⟩, rfl, .inl rfl⟩

theorem client_call {o : Outcome} (h : w.call serde p o pc = some t) (hClient : pc.client = true) :
    ∃ pc', ByClient w t p pc pc' := by
  cases pc with
  | initDir op o | makeFifo o | spawn op o | createFile c u st | writeFile c u st j n
  | daemonOpen c | daemonRead c j | daemonClose c j | supervise c st => cases hClient
  | listIds =>
    cases h
    exact ⟨_, .plain (by split <;> rfl)⟩
  | openState r =>
    have hReader : ∀ c, r ≠ .daemon c := by
      rintro c rfl
      cases hClient
    simp only [call] at h
    split at h
    · cases h
      exact readBack_client hReader _ _ _
    · cases h
      refine ⟨_, .plain ?_⟩
      cases r with
      | daemon c => exact absurd rfl (hReader c)
      | _ => rfl
  | readFile r j got =>
    have hReader : ∀ c, r ≠ .daemon c := by
      rintro c rfl
      cases hClient
    simp only [call] at h
    split at h
    · cases h
    split at h
    · cases h
      exact readBack_client hReader _ _ _
    · cases h
      refine ⟨_, .plain ?_⟩
      cases r with
      | daemon c => exact absurd rfl (hReader c)
      | _ => rfl
  | startOpen =>
    simp only [call] at h
    split at h
    · cases h
      exact ⟨_, .plain rfl⟩
    · cases h
      exact ⟨_, .setPipe rfl⟩
  | startWrite j =>
    obtain ⟨f, _, rfl⟩ := Option.map_eq_some_iff.mp h
    exact ⟨_, .setPipe rfl⟩
  | startClose j result =>
    cases h
    exact ⟨_, .setPipe rfl⟩
  | sendSignal child sig =>
    cases h
    refine ⟨_, rfl, by rw [goto, signal_procs], by rw [goto_disk, signal_disk]; exact .refl _,
      .inl signal_history, signal_spawned, ?_⟩
    rcases signal_inits (w := w) child sig with hSame | ⟨hKills, hInits⟩
    · exact .inl hSame
    · exact .inr ⟨child, if_pos hKills, hInits⟩
  | deleteKill child =>
    cases h
    refine ⟨.openDir, rfl, by rw [goto, signal_procs], by rw [goto_disk, signal_disk]; exact .refl _,
      .inl signal_history, signal_spawned, ?_⟩
    rcases signal_inits (w := w) child SIGKILL with hSame | ⟨_, hInits⟩
    · exact .inl hSame
    · exact .inr ⟨child, rfl, hInits⟩
  | openDir =>
    simp only [call] at h
    split at h
    · cases h
      exact ⟨_, .plain rfl⟩
    · cases h
      exact ⟨_, .plain rfl⟩
  | unlink d =>
    simp only [call] at h
    split at h
    · split at h
      · cases h
        exact ⟨_, .plain rfl⟩
      · rename_i disk hRemove
        cases h
        exact ⟨_, .names rfl (.removeDir hRemove)⟩
    · obtain ⟨disk, hUnlink, rfl⟩ := Option.map_eq_some_iff.mp h
      exact ⟨_, .names rfl (.unlink hUnlink)⟩
  | done result => cases h

theorem client_failCall {e : Errno} (h : w.failCall p e pc = some t) (hClient : pc.client = true) :
    t.inits = w.inits ∧ ∃ pc', ByClient w t p pc pc' := by
  cases pc with
  | initDir op o | makeFifo o | spawn op o | createFile c u st | writeFile c u st j n
  | daemonOpen c | daemonRead c j | daemonClose c j | supervise c st => cases hClient
  | openState r | readFile r j got =>
    cases h
    refine ⟨rfl, readBack_client ?_ _ _ _⟩
    rintro c rfl
    cases hClient
  | startClose j result | done result => cases h
  | listIds | startOpen | startWrite j | sendSignal child sig | deleteKill child | openDir
  | unlink d =>
    cases h
    exact ⟨rfl, _, .plain rfl⟩

end World

end Dtrun.Commands
