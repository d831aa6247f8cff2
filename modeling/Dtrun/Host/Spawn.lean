import Dtrun.Host.Lifecycle
import Dtrun.Library.Pipes
import Dtrun.Oci.Config

/-! # Spawning the init

`spawn_created` and what `run` and the daemon of `create` do after it, against the child that runs
`setup_and_exec_child`. The two meet over two pipes: the child writes to `child_ready` and reads
from `maps_done`, in between the parent writes the id maps. Without `CLONE_FILES` the child has
copies of all the ends, and the parent keeps those that it has not moved into the closure. How each
call comes out is left open, and so are the signals that others send to the init. As the first
process of its namespace, the init ignores what it has no handler for except `SIGKILL` and a
`SIGSTOP` from outside.
-/
namespace Dtrun.Spawning
set_option autoImplicit false
open FiniteMap Lifecycle Oci Pipes Transition

inductive Party where
  | parent | child
  deriving DecidableEq

/-- The texts that are not this repository's own: of an error number, and of a wait status. -/
structure Texts where
  strerror : Errno → String
  debug : WaitStatus → String

/-- The ids of the user that runs the parent, and the init's pid. -/
structure Ids where
  uid : UInt32
  gid : UInt32
  child : Pid

inductive Operation where
  | run | create
  deriving DecidableEq

/-! ## namespaces.rs -/

inductive NamespaceError where
  | idMap (entry : String) (e : Errno)

def NamespaceError.display (texts : Texts) : NamespaceError → String
  | .idMap entry e => s!"write {entry} failed: {texts.strerror e}"

def formatMappings (mappings : List LinuxIdMapping) : String :=
  mappings.foldl (fun text m => text ++ s!"{m.containerId} {m.hostId} {m.size}\n") ""

def mappingsOr (id : UInt32) (mappings : List LinuxIdMapping) : List LinuxIdMapping :=
  if mappings = [] then [⟨0, id, 1⟩] else mappings

/-- What `map_root_user` writes below `/proc/<child>`, in order. -/
def mapRootUser (ids : Ids) (uidMappings gidMappings : List LinuxIdMapping) :
    List (String × String) :=
  [("setgroups", "deny\n"), ("gid_map", formatMappings (mappingsOr ids.gid gidMappings)),
    ("uid_map", formatMappings (mappingsOr ids.uid uidMappings))]

/-! ## host.rs and child.rs -/

/-- Why the parent ends: the error returned, or a panic. -/
inductive Failure where
  | error (e : HostError)
  | panic
  deriving DecidableEq

/-- Where the parent is, from the clone on. -/
inductive Parent where
  | readReady
  | mapRootUser (rest : List (String × String))
  | writeMapsDone | spawnRelays | waitChild | setOptions
  /-- The rest of `run`, or of `supervisor_created` and `supervisor_wait_and_run`. -/
  | writeState | openFifo | readByte | rewriteState | supervise
  | ending (result : Option Failure)
  | exited (result : Option Failure)
  deriving DecidableEq

inductive Death where
  | exited (code : Int)
  | killed
  deriving DecidableEq

/-- Where the child is in `setup_and_exec_child`. -/
inductive Child where
  | writeReady | readMapsDone
  /-- Up to `PTRACE_TRACEME`. -/
  | setup
  | raise
  /-- From its own stop on, `execvpe` and the container's program included. -/
  | proceeds
  | dead (death : Death)
  deriving DecidableEq

inductive Tracer where
  | parent
  /-- The process that the child is handed to when its parent has exited. -/
  | reaper
  deriving DecidableEq

structure Spawn where
  parent : Parent
  child : Child
  /-- The signal that the child is stopped by. -/
  stop : Option Signal
  tracer : Option Tracer
  /-- `PTRACE_O_EXITKILL` -/
  exitKill : Bool
  childReady : Pipe Party
  mapsDone : Pipe Party
  /-- The files below `/proc/<child>` that have been written. -/
  maps : Map String String
  deriving DecidableEq

inductive Label where
  | parent (result : Except Errno Unit)
  | child (result : Except Errno Unit)
  /-- The container's program ends. -/
  | exits (code : Int)
  | signal (sig : Signal)

variable (texts : Texts) (ids : Ids) (config : OciConfig) (op : Operation)

def idMaps : List (String × String) :=
  mapRootUser ids ((config.linux.bind LinuxConfig.uidMappings).getD [])
    ((config.linux.bind LinuxConfig.gidMappings).getD [])

namespace Spawn

variable (s : Spawn)

def Alive : Prop := ∀ death, s.child ≠ .dead death

instance : Decidable s.Alive :=
  match h : s.child with
  | .dead death => .isFalse fun hAlive => hAlive death h
  | .writeReady | .readMapsDone | .setup | .raise | .proceeds =>
    .isTrue fun death hDead => by rw [h] at hDead; cases hDead

def dies (death : Death) : Spawn :=
  { s with
    child := .dead death
    stop := none
    childReady := s.childReady.closedBy .child
    mapsDone := s.mapsDone.closedBy .child }

/-- The parent ends. A child that it traces is killed if the option is set; else it is let go, and
of the signals that may have stopped it only `SIGSTOP` stops the first process of a namespace. -/
def parentExits (result : Option Failure) : Spawn :=
  let t := { s with
    parent := .exited result
    childReady := s.childReady.closedBy .parent
    mapsDone := s.mapsDone.closedBy .parent }
  if s.exitKill ∧ s.Alive then t.dies .killed
  else { t with
    tracer := if s.tracer = some .parent then none else s.tracer
    stop := s.stop.filter (· = .SIGSTOP) }

def fail (e : HostError) : Spawn := { s with parent := .ending (some (.error e)) }

def status : Option WaitStatus :=
  match s.child with
  | .dead (.exited code) => some (.exited ids.child code)
  | .dead .killed => some (.signaled ids.child .SIGKILL false)
  | _ => s.stop.map (.stopped ids.child)

def parentStep (result : Except Errno Unit) : Option Spawn :=
  match s.parent, result with
  | .readReady, .ok () => (s.childReady.read 1).map fun r =>
      { s with childReady := r.2, parent := .mapRootUser (idMaps ids config) }
  | .readReady, .error _ => some { s with parent := .mapRootUser (idMaps ids config) }
  | .mapRootUser [], _ => some { s with parent := .writeMapsDone }
  | .mapRootUser ((entry, contents) :: rest), .ok () =>
    some { s with maps := s.maps.insert entry contents, parent := .mapRootUser rest }
  | .mapRootUser ((entry, _) :: _), .error e =>
    some (s.fail (.config
      s!"user namespace setup failed: {(NamespaceError.idMap entry e).display texts}"))
  | .writeMapsDone, .ok () => (s.mapsDone.write [0x78]).map fun p =>
      { s with mapsDone := p, parent := .spawnRelays }
  | .writeMapsDone, .error _ => some { s with parent := .spawnRelays }
  | .spawnRelays, .ok () => some { s with parent := .waitChild }
  | .spawnRelays, .error _ => some { s with parent := .ending (some .panic) }
  | .waitChild, .error e => some (s.fail (.wait e))
  | .waitChild, .ok () => (s.status ids).map fun status => match status with
    | .stopped _ .SIGSTOP => { s with parent := .setOptions }
    | .exited _ code => s.fail (.config s!"container init exited during setup with code {code}")
    | other => s.fail (.config s!"unexpected container setup result: {texts.debug other}")
  | .setOptions, .ok () =>
    if s.Alive ∧ s.tracer = some .parent ∧ s.stop.isSome then
      some { s with exitKill := true, parent := .writeState } else none
  | .setOptions, .error e => some (s.fail (.errno "ptrace setoptions" e))
  | .writeState, .ok () =>
    some { s with parent := if op = .run then .supervise else .openFifo }
  | .writeState, .error e => some (s.fail (.state (.io e)))
  | .openFifo, .ok () => some { s with parent := .readByte }
  | .openFifo, .error e => some (s.fail (.io e))
  -- The result of the read is not looked at.
  | .readByte, _ => some { s with parent := .rewriteState }
  | .rewriteState, .ok () => some { s with parent := .supervise }
  | .rewriteState, .error e => some (s.fail (.state (.io e)))
  -- The init is resumed from its stops until it is dead.
  | .supervise, .ok () =>
    if s.Alive then some { s with stop := none } else some { s with parent := .ending none }
  | .supervise, .error e => some (s.fail (.supervise (.ptrace e)))
  | .ending result, _ => some (s.parentExits result)
  | .exited _, _ => none

/-- A child that is stopped takes no step. -/
def childStep (result : Except Errno Unit) : Option Spawn :=
  if s.stop.isSome then none else
  match s.child, result with
  | .writeReady, .ok () => (s.childReady.write [0x78]).map fun p =>
      { s with childReady := p, child := .readMapsDone }
  -- The byte is not looked at, nor whether there is one.
  | .readMapsDone, .ok () => (s.mapsDone.read 1).map fun r =>
      { s with mapsDone := r.2, child := .setup }
  | .setup, .ok () =>
    let exited := match s.parent with
      | .exited _ => true
      | _ => false
    some { s with child := .raise, tracer := some (if exited then .reaper else .parent) }
  | .raise, .ok () =>
    some { s with child := .proceeds, stop := if s.tracer.isSome then some .SIGSTOP else none }
  | .writeReady, .error _ | .readMapsDone, .error _ | .setup, .error _ =>
    some (s.dies (.exited 1))
  | .raise, .error _ | .proceeds, _ | .dead _, _ => none

def deliver (sig : Signal) : Option Spawn :=
  if ¬ s.Alive then none
  else if sig = .SIGKILL then some (s.dies .killed)
  else if s.stop.isSome then
    if sig = .SIGCONT ∧ s.tracer = none then some { s with stop := none } else none
  else if s.tracer.isSome ∨ sig = .SIGSTOP then some { s with stop := some sig }
  else some s

def step : Label → Option Spawn
  | .parent result => s.parentStep texts ids config op result
  | .child result => s.childStep result
  | .exits code =>
    if s.child = .proceeds ∧ s.stop = none then some (s.dies (.exited code)) else none
  | .signal sig => s.deliver sig

def cloned : Spawn where
  parent := .readReady
  child := .writeReady
  stop := none
  tracer := none
  exitKill := false
  childReady := ⟨[], {.parent, .child}, {.child}⟩
  mapsDone := ⟨[], {.child}, {.parent, .child}⟩
  maps := ∅

end Spawn

def system : System Spawn Label where
  init s := s = .cloned
  step s := s.step texts ids config op

/-! ## What the steps of the child and of others leave alone -/

namespace Spawn

variable {texts ids config op} {s t : Spawn}

theorem not_alive_of_dead {death : Death} (h : s.child = .dead death) : ¬ s.Alive :=
  fun hAlive => hAlive death h

theorem alive_of_eq (h : t.child = s.child) (hAlive : t.Alive) : s.Alive :=
  fun death hDead => hAlive death (h.trans hDead)

theorem status_of_alive (hAlive : s.Alive) :
    s.status ids = s.stop.map (.stopped ids.child) := by
  cases hChild : s.child with
  | dead death => exact absurd hAlive (not_alive_of_dead hChild)
  | writeReady | readMapsDone | setup | raise | proceeds => simp [status, hChild]

theorem childStep_frame {result : Except Errno Unit} (hStep : s.childStep result = some t) :
    t.parent = s.parent ∧ t.exitKill = s.exitKill ∧ t.maps = s.maps ∧ s.Alive := by
  unfold childStep at hStep
  split at hStep
  · cases hStep
  cases hChild : s.child with
  | dead death | proceeds => simp [hChild] at hStep
  | writeReady | readMapsDone =>
    cases result with
    | error e =>
      simp only [hChild] at hStep
      cases hStep
      exact ⟨rfl, rfl, rfl, by simp [Alive, hChild]⟩
    | ok u =>
      simp only [hChild, Option.map_eq_some_iff] at hStep
      obtain ⟨_, _, rfl⟩ := hStep
      exact ⟨rfl, rfl, rfl, by simp [Alive, hChild]⟩
  | setup | raise =>
    cases result with
    | error e =>
      simp only [hChild] at hStep
      cases hStep <;> exact ⟨rfl, rfl, rfl, by simp [Alive, hChild]⟩
    | ok u =>
      simp only [hChild] at hStep
      cases hStep
      exact ⟨rfl, rfl, rfl, by simp [Alive, hChild]⟩

theorem deliver_frame {sig : Signal} (hStep : s.deliver sig = some t) :
    t.parent = s.parent ∧ t.exitKill = s.exitKill ∧ t.maps = s.maps ∧ s.Alive := by
  unfold deliver at hStep
  split at hStep
  · cases hStep
  rename_i hAlive
  have hAlive := Classical.not_not.mp hAlive
  split at hStep
  · cases hStep
    exact ⟨rfl, rfl, rfl, hAlive⟩
  split at hStep
  · split at hStep
    · cases hStep
      exact ⟨rfl, rfl, rfl, hAlive⟩
    · cases hStep
  split at hStep
  · cases hStep
    exact ⟨rfl, rfl, rfl, hAlive⟩
  · cases hStep
    exact ⟨rfl, rfl, rfl, hAlive⟩

theorem step_frame {l : Label} (hOther : ∀ result, l ≠ .parent result)
    (hStep : s.step texts ids config op l = some t) :
    t.parent = s.parent ∧ t.exitKill = s.exitKill ∧ t.maps = s.maps ∧ s.Alive := by
  cases l with
  | parent result => exact absurd rfl (hOther result)
  | child result => exact childStep_frame hStep
  | signal sig => exact deliver_frame hStep
  | exits code =>
    simp only [step] at hStep
    split at hStep
    · rename_i hProceeds
      cases hStep
      exact ⟨rfl, rfl, rfl, by simp [Alive, hProceeds.1]⟩
    · cases hStep

end Spawn

/-! ## A live init is the parent's to kill -/

/-- The calls whose failure ends the parent before `PTRACE_O_EXITKILL` is set. -/
def Parent.exposed : Parent → Bool
  | .mapRootUser (_ :: _) | .spawnRelays | .waitChild | .setOptions => true
  | _ => false

/-- While the init lives, none of these calls fails, and it stops for nothing but `SIGSTOP`. -/
def Attended (s : Spawn) (l : Label) : Prop :=
  s.Alive → match l with
    | .parent (.error _) => s.parent.exposed = false
    | .parent (.ok ()) => s.parent = .waitChild → s.stop = some .SIGSTOP
    | _ => True

instance (s : Spawn) (l : Label) : Decidable (Attended s l) :=
  match l with
  | .parent (.error _) => inferInstanceAs (Decidable (_ → _ = _))
  | .parent (.ok ()) => inferInstanceAs (Decidable (_ → _ = _ → _ = _))
  | .child _ | .exits _ | .signal _ => inferInstanceAs (Decidable (_ → True))

/-! ## What a turn of the parent does -/

def Parent.late : Parent → Bool
  | .writeState | .openFifo | .readByte | .rewriteState | .supervise => true
  | _ => false

/-- The call after one that leaves everything else alone. -/
inductive Parent.Follows : Parent → Parent → Prop
  | relays : Follows .writeMapsDone .spawnRelays
  | wait : Follows .spawnRelays .waitChild
  | stopped : Follows .waitChild .setOptions
  | fifo : Follows .writeState .openFifo
  | run : Follows .writeState .supervise
  | byte : Follows .openFifo .readByte
  | rewrite : Follows .readByte .rewriteState
  | supervise : Follows .rewriteState .supervise

namespace Spawn

inductive GivesUp (s : Spawn) : Except Errno Unit → Prop
  | early {e : Errno} (hExposed : s.parent.exposed = true) : GivesUp s (.error e)
  | child (hParent : s.parent = .waitChild) (hStop : s.Alive → s.stop ≠ some .SIGSTOP) :
      GivesUp s (.ok ())
  | late {result : Except Errno Unit} (hLate : s.parent.late = true) : GivesUp s result

inductive ParentTurn (ids : Ids) (config : OciConfig) (s : Spawn) :
    Except Errno Unit → Spawn → Prop
  | starts {result : Except Errno Unit} (pipe : Pipe Party) (hParent : s.parent = .readReady) :
      ParentTurn ids config s result
        { s with childReady := pipe, parent := .mapRootUser (idMaps ids config) }
  | maps {entry contents : String} {rest : List (String × String)}
      (hParent : s.parent = .mapRootUser ((entry, contents) :: rest)) :
      ParentTurn ids config s (.ok ())
        { s with maps := s.maps.insert entry contents, parent := .mapRootUser rest }
  | mapped {result : Except Errno Unit} (hParent : s.parent = .mapRootUser []) :
      ParentTurn ids config s result { s with parent := .writeMapsDone }
  | tells {pipe : Pipe Party} {data : List (BitVec 8)} (hParent : s.parent = .writeMapsDone)
      (hWrite : s.mapsDone.write data = some pipe) :
      ParentTurn ids config s (.ok ()) { s with mapsDone := pipe, parent := .spawnRelays }
  | goes {result : Except Errno Unit} {before next : Parent} (hParent : s.parent = before)
      (hFollows : before.Follows next) : ParentTurn ids config s result { s with parent := next }
  | attaches (hParent : s.parent = .setOptions) :
      ParentTurn ids config s (.ok ()) { s with exitKill := true, parent := .writeState }
  | resumes (hParent : s.parent = .supervise) :
      ParentTurn ids config s (.ok ()) { s with stop := none, parent := .supervise }
  | givesUp {result : Except Errno Unit} (failure : Option Failure) (hWhy : s.GivesUp result) :
      ParentTurn ids config s result { s with parent := .ending failure }
  | exits {result : Except Errno Unit} {failure : Option Failure}
      (hParent : s.parent = .ending failure) :
      ParentTurn ids config s result (s.parentExits failure)

variable {texts ids config op} {s t : Spawn}

theorem parentStep_waitChild (hParent : s.parent = .waitChild)
    (hStep : s.parentStep texts ids config op (.ok ()) = some t) :
    s.ParentTurn ids config (.ok ()) t := by
  simp only [parentStep, hParent, Option.map_eq_some_iff] at hStep
  obtain ⟨status, hStatus, rfl⟩ := hStep
  have hStop (hNot : ∀ p, status ≠ .stopped p .SIGSTOP) (hAlive : s.Alive) :
      s.stop ≠ some .SIGSTOP := by
    intro hOwn
    rw [status_of_alive hAlive, hOwn] at hStatus
    exact hNot ids.child (Option.some.inj hStatus).symm
  split
  · exact .goes hParent .stopped
  · exact .givesUp _ (.child hParent (hStop fun _ hEq => by cases hEq))
  · rename_i hOther _
    exact .givesUp _ (.child hParent (hStop hOther))

theorem parentStep_turn {result : Except Errno Unit}
    (hStep : s.parentStep texts ids config op result = some t) :
    s.ParentTurn ids config result t := by
  cases hParent : s.parent with
  | readReady =>
    cases result with
    | error e =>
      simp only [parentStep, hParent] at hStep
      cases hStep
      exact .starts _ hParent
    | ok u =>
      simp only [parentStep, hParent, Option.map_eq_some_iff] at hStep
      obtain ⟨_, _, rfl⟩ := hStep
      exact .starts _ hParent
  | mapRootUser rest =>
    cases rest with
    | nil =>
      simp only [parentStep, hParent] at hStep
      cases hStep
      exact .mapped hParent
    | cons entry rest =>
      cases result with
      | ok u =>
        simp only [parentStep, hParent] at hStep
        cases hStep
        exact .maps hParent
      | error e =>
        simp only [parentStep, hParent] at hStep
        cases hStep
        exact .givesUp _ (.early (by rw [hParent]; rfl))
  | writeMapsDone =>
    cases result with
    | error e =>
      simp only [parentStep, hParent] at hStep
      cases hStep
      exact .goes hParent .relays
    | ok u =>
      simp only [parentStep, hParent, Option.map_eq_some_iff] at hStep
      obtain ⟨_, hWrite, rfl⟩ := hStep
      exact .tells hParent hWrite
  | spawnRelays =>
    cases result with
    | error e =>
      simp only [parentStep, hParent] at hStep
      cases hStep
      exact .givesUp _ (.early (by rw [hParent]; rfl))
    | ok u =>
      simp only [parentStep, hParent] at hStep
      cases hStep
      exact .goes hParent .wait
  | waitChild =>
    cases result with
    | error e =>
      simp only [parentStep, hParent] at hStep
      cases hStep
      exact .givesUp _ (.early (by rw [hParent]; rfl))
    | ok u => exact parentStep_waitChild hParent hStep
  | setOptions =>
    cases result with
    | error e =>
      simp only [parentStep, hParent] at hStep
      cases hStep
      exact .givesUp _ (.early (by rw [hParent]; rfl))
    | ok u =>
      simp only [parentStep, hParent] at hStep
      split at hStep
      · cases hStep
        exact .attaches hParent
      · cases hStep
  | writeState =>
    cases result with
    | error e =>
      simp only [parentStep, hParent] at hStep
      cases hStep
      exact .givesUp _ (.late (by rw [hParent]; rfl))
    | ok u =>
      simp only [parentStep, hParent] at hStep
      cases hStep
      cases op with
      | create => exact .goes hParent .fifo
      | run => exact .goes hParent .run
  | openFifo =>
    cases result with
    | error e =>
      simp only [parentStep, hParent] at hStep
      cases hStep
      exact .givesUp _ (.late (by rw [hParent]; rfl))
    | ok u =>
      simp only [parentStep, hParent] at hStep
      cases hStep
      exact .goes hParent .byte
  | readByte =>
    simp only [parentStep, hParent] at hStep
    cases hStep
    exact .goes hParent .rewrite
  | rewriteState =>
    cases result with
    | error e =>
      simp only [parentStep, hParent] at hStep
      cases hStep
      exact .givesUp _ (.late (by rw [hParent]; rfl))
    | ok u =>
      simp only [parentStep, hParent] at hStep
      cases hStep
      exact .goes hParent .supervise
  | supervise =>
    cases result with
    | error e =>
      simp only [parentStep, hParent] at hStep
      cases hStep
      exact .givesUp _ (.late (by rw [hParent]; rfl))
    | ok u =>
      simp only [parentStep, hParent] at hStep
      split at hStep
      · cases hStep
        exact .resumes hParent
      · cases hStep
        exact .givesUp _ (.late (by rw [hParent]; rfl))
  | ending failure =>
    simp only [parentStep, hParent] at hStep
    cases hStep
    exact .exits hParent
  | exited failure =>
    simp only [parentStep, hParent] at hStep
    cases hStep

end Spawn

/-! ## The parent ends with its init -/

/-- A live init dies with the parent from the return of `spawn_created` on. -/
def Tied (s : Spawn) : Prop :=
  s.Alive → match s.parent with
    | .writeState | .openFifo | .readByte | .rewriteState | .supervise | .ending _ =>
      s.exitKill = true
    | .exited _ => False
    | _ => True

namespace Tied

variable {texts ids config op} {s t : Spawn}

theorem cloned : Tied .cloned := fun _ => trivial

theorem congr (h : Tied s) (hParent : t.parent = s.parent) (hKill : t.exitKill = s.exitKill)
    (hAlive : t.Alive → s.Alive) : Tied t := by
  intro hLives
  rw [hParent, hKill]
  exact h (hAlive hLives)

theorem parentExits (h : s.Alive → s.exitKill = true) (result : Option Failure) :
    Tied (s.parentExits result) := by
  intro hLives
  by_cases hAlive : s.Alive
  · simp only [Spawn.parentExits, h hAlive, hAlive, and_self, if_true] at hLives
    exact absurd rfl (hLives .killed)
  · simp only [Spawn.parentExits, hAlive, and_false, if_false] at hLives
    exact absurd (Spawn.alive_of_eq rfl hLives) hAlive

/-- The parent ends while the init is dead, or with the option set. -/
theorem ending {failure : Option Failure} (h : s.Alive → s.exitKill = true) :
    Tied { s with parent := .ending failure } :=
  fun hLives => h (Spawn.alive_of_eq rfl hLives)

theorem parentStep {result : Except Errno Unit} (h : Tied s)
    (hAttended : Attended s (.parent result))
    (hStep : s.parentStep texts ids config op result = some t) : Tied t := by
  have hKill (hLate : s.parent.late = true) (hAlive : s.Alive) : s.exitKill = true := by
    have hTied := h hAlive
    cases hParent : s.parent with
    | writeState | openFifo | readByte | rewriteState | supervise =>
      simpa only [hParent] using hTied
    | _ => simp [hParent, Parent.late] at hLate
  cases Spawn.parentStep_turn hStep with
  | starts _ _ | maps _ | mapped _ | tells _ _ => exact fun _ => trivial
  | attaches _ => exact fun _ => rfl
  | goes hParent hFollows =>
    cases hFollows with
    | relays | wait | stopped => exact fun _ => trivial
    | fifo | run | byte | rewrite | supervise =>
      exact fun hLives => hKill (by rw [hParent]; rfl) (Spawn.alive_of_eq rfl hLives)
  | resumes hParent => exact h.congr hParent.symm rfl (Spawn.alive_of_eq rfl)
  | givesUp failure hWhy =>
    refine ending fun hAlive => ?_
    cases hWhy with
    | early hExposed =>
      rw [hAttended hAlive] at hExposed
      cases hExposed
    | child hParent hStop => exact absurd (hAttended hAlive hParent) (hStop hAlive)
    | late hLate => exact hKill hLate hAlive
  | exits hParent =>
    exact parentExits (fun hAlive => by simpa only [hParent] using h hAlive) _

theorem step {l : Label} (h : Tied s) (hAttended : Attended s l)
    (hStep : s.step texts ids config op l = some t) : Tied t := by
  cases l with
  | parent result => exact h.parentStep hAttended hStep
  | child result =>
    obtain ⟨hParent, hKill, _, hAlive⟩ := Spawn.step_frame (fun _ hEq => by cases hEq) hStep
    exact h.congr hParent hKill fun _ => hAlive
  | exits code =>
    obtain ⟨hParent, hKill, _, hAlive⟩ := Spawn.step_frame (fun _ hEq => by cases hEq) hStep
    exact h.congr hParent hKill fun _ => hAlive
  | signal sig =>
    obtain ⟨hParent, hKill, _, hAlive⟩ := Spawn.step_frame (fun _ hEq => by cases hEq) hStep
    exact h.congr hParent hKill fun _ => hAlive

theorem reach (h : (system texts ids config op).Reach Attended s) : Tied s :=
  h.invariant (fun _ hInit => hInit ▸ cloned) fun _ _ _ _ hs hOk hStep => hs.step hOk hStep

end Tied

/-! ## Past the handshake the maps are written -/

def Child.pastHandshake : Child → Bool
  | .setup | .raise | .proceeds => true
  | _ => false

def Spawn.MapsWritten (ids : Ids) (config : OciConfig) (s : Spawn) : Prop :=
  ∀ e ∈ idMaps ids config, s.maps.get e.1 = some e.2

theorem idMaps_unique (ids : Ids) (config : OciConfig) :
    ∀ e ∈ idMaps ids config, ∀ e' ∈ idMaps ids config, e.1 = e'.1 → e = e' := by
  simp [idMaps, mapRootUser]

/-- The child's own copy of the write end keeps its read from finding the end of file. -/
structure Shaken (ids : Ids) (config : OciConfig) (s : Spawn) : Prop where
  holds : s.Alive → .child ∈ s.mapsDone.writers
  writing : ∀ rest, s.parent = .mapRootUser rest → rest ⊆ idMaps ids config ∧
    ∀ e ∈ idMaps ids config, e ∈ rest ∨ s.maps.get e.1 = some e.2
  written : s.parent = .writeMapsDone → s.MapsWritten ids config
  told : s.mapsDone.unread ≠ [] ∨ s.child.pastHandshake = true → s.MapsWritten ids config

namespace Shaken

variable {texts ids config op} {s t : Spawn}

theorem cloned : Shaken ids config .cloned where
  holds _ := by decide
  writing _ hParent := by cases hParent
  written hParent := by cases hParent
  told hTold := by simp [Spawn.cloned, Child.pastHandshake] at hTold

theorem moves (h : Shaken ids config s) (hChild : t.child = s.child)
    (hPipe : t.mapsDone = s.mapsDone) (hMaps : t.maps = s.maps)
    (hWriting : ∀ rest, t.parent ≠ .mapRootUser rest) (hWritten : t.parent ≠ .writeMapsDone) :
    Shaken ids config t where
  holds hAlive := hPipe ▸ h.holds (Spawn.alive_of_eq hChild hAlive)
  writing rest hParent := absurd hParent (hWriting rest)
  written hParent := absurd hParent hWritten
  told := by
    rw [hPipe, hChild, Spawn.MapsWritten, hMaps]
    exact h.told

theorem dies (h : Shaken ids config s) (death : Death) : Shaken ids config (s.dies death) where
  holds hAlive := absurd rfl (hAlive death)
  writing := h.writing
  written := h.written
  told hTold := by
    rcases hTold with hUnread | hPast
    · exact h.told (.inl (Pipe.closedBy_unread_ne_nil hUnread))
    · cases hPast

theorem parentExits (h : Shaken ids config s) (result : Option Failure) :
    Shaken ids config (s.parentExits result) := by
  have hExits : Shaken ids config { s with
      parent := .exited result
      childReady := s.childReady.closedBy .parent
      mapsDone := s.mapsDone.closedBy .parent } := by
    constructor
    · exact fun hAlive => Pipe.mem_writers_closedBy (h.holds (Spawn.alive_of_eq rfl hAlive))
        (by decide)
    · intro rest hParent
      cases hParent
    · intro hParent
      cases hParent
    · rintro (hUnread | hPast)
      · exact h.told (.inl (Pipe.closedBy_unread_ne_nil hUnread))
      · exact h.told (.inr hPast)
  unfold Spawn.parentExits
  split
  · exact hExits.dies .killed
  · exact ⟨fun hAlive => hExits.holds (Spawn.alive_of_eq rfl hAlive), hExits.writing,
      hExits.written, hExits.told⟩

theorem insert_get {e e' : String × String} (he : e ∈ idMaps ids config)
    (he' : e' ∈ idMaps ids config) {m : Map String String} (hGet : m.get e.1 = some e.2) :
    Map.get (m.insert e'.1 e'.2) e.1 = some e.2 := by
  rw [Map.get_insert]
  split
  · rename_i hSame
    rw [idMaps_unique ids config e he e' he' hSame]
  · exact hGet

theorem writeMap {entry contents : String} {rest : List (String × String)}
    (h : Shaken ids config s) (hParent : s.parent = .mapRootUser ((entry, contents) :: rest)) :
    Shaken ids config
      { s with maps := s.maps.insert entry contents, parent := .mapRootUser rest } := by
  obtain ⟨hSubset, hSome⟩ := h.writing _ hParent
  have hEntry := hSubset List.mem_cons_self
  constructor
  · exact fun hAlive => h.holds (Spawn.alive_of_eq rfl hAlive)
  · rintro _ ⟨⟩
    refine ⟨fun e he => hSubset (List.mem_cons_of_mem _ he), fun e he => ?_⟩
    rcases hSome e he with hRest | hGet
    · rcases List.mem_cons.mp hRest with rfl | hRest
      · exact .inr (Map.get_insert_self _ _ _)
      · exact .inl hRest
    · exact .inr (insert_get he hEntry hGet)
  · intro hNext
    cases hNext
  · exact fun hTold e he => insert_get he hEntry (h.told hTold e he)

theorem startMaps (h : Shaken ids config s) (hChild : t.child = s.child)
    (hPipe : t.mapsDone = s.mapsDone) (hMaps : t.maps = s.maps)
    (hParent : t.parent = .mapRootUser (idMaps ids config)) : Shaken ids config t where
  holds hAlive := hPipe ▸ h.holds (Spawn.alive_of_eq hChild hAlive)
  writing rest hRest := by
    obtain rfl := Parent.mapRootUser.inj (hParent.symm.trans hRest)
    exact ⟨fun _ he => he, fun _ he => .inl he⟩
  written hWritten := by cases hParent.symm.trans hWritten
  told := by
    rw [hPipe, hChild, Spawn.MapsWritten, hMaps]
    exact h.told

theorem mapsWritten (h : Shaken ids config s) (hParent : s.parent = .mapRootUser []) :
    Shaken ids config { s with parent := .writeMapsDone } where
  holds hAlive := h.holds (Spawn.alive_of_eq rfl hAlive)
  writing rest hRest := by cases hRest
  written _ e he := by
    rcases (h.writing [] hParent).2 e he with hRest | hGet
    · cases hRest
    · exact hGet
  told := h.told

theorem writeMapsDone (h : Shaken ids config s) (hParent : s.parent = .writeMapsDone)
    {p : Pipe Party} {data : List (BitVec 8)} (hWrite : s.mapsDone.write data = some p) :
    Shaken ids config { s with mapsDone := p, parent := .spawnRelays } where
  holds hAlive := by
    rw [Pipe.write_writers hWrite]
    exact h.holds (Spawn.alive_of_eq rfl hAlive)
  writing rest hRest := by cases hRest
  written hWritten := by cases hWritten
  told _ := h.written hParent

theorem parentStep {result : Except Errno Unit} (h : Shaken ids config s)
    (hStep : s.parentStep texts ids config op result = some t) : Shaken ids config t := by
  cases Spawn.parentStep_turn hStep with
  | starts _ _ => exact h.startMaps rfl rfl rfl rfl
  | maps hParent => exact h.writeMap hParent
  | mapped hParent => exact h.mapsWritten hParent
  | tells hParent hWrite => exact h.writeMapsDone hParent hWrite
  | goes hParent hFollows =>
    cases hFollows <;>
      exact h.moves rfl rfl rfl (fun _ hNext => by cases hNext) (fun hNext => by cases hNext)
  | attaches _ | resumes _ | givesUp _ _ =>
    exact h.moves rfl rfl rfl (fun _ hNext => by cases hNext) (fun hNext => by cases hNext)
  | exits _ => exact h.parentExits _

theorem childMoves (h : Shaken ids config s) (hParent : t.parent = s.parent)
    (hPipe : t.mapsDone = s.mapsDone) (hMaps : t.maps = s.maps) (hAlive : s.Alive)
    (hPast : t.child.pastHandshake = true → s.child.pastHandshake = true) :
    Shaken ids config t where
  holds _ := hPipe ▸ h.holds hAlive
  writing := by
    rw [hParent, hMaps]
    exact h.writing
  written := by
    rw [hParent, Spawn.MapsWritten, hMaps]
    exact h.written
  told := by
    rw [hPipe, Spawn.MapsWritten, hMaps]
    exact fun hTold => h.told (hTold.imp_right hPast)

/-- The child goes on from `maps_done`: it has a write end itself, so there was a byte. -/
theorem readMapsDone (h : Shaken ids config s) (hAlive : s.Alive) {r : List (BitVec 8) × Pipe Party}
    {n : Nat} (hRead : s.mapsDone.read n = some r) :
    Shaken ids config { s with mapsDone := r.2, child := .setup } := by
  have hWritten := h.told (.inl (Pipe.unread_ne_nil_of_read hRead (h.holds hAlive)))
  refine ⟨fun _ => ?_, h.writing, h.written, fun _ => hWritten⟩
  rw [Pipe.read_writers hRead]
  exact h.holds hAlive

theorem childStep {result : Except Errno Unit} (h : Shaken ids config s)
    (hStep : s.childStep result = some t) : Shaken ids config t := by
  obtain ⟨_, _, _, hAlive⟩ := Spawn.childStep_frame hStep
  unfold Spawn.childStep at hStep
  split at hStep
  · cases hStep
  cases hChild : s.child with
  | dead death | proceeds => simp [hChild] at hStep
  | writeReady =>
    cases result with
    | error e =>
      simp only [hChild] at hStep
      cases hStep
      exact h.dies _
    | ok u =>
      simp only [hChild, Option.map_eq_some_iff] at hStep
      obtain ⟨_, _, rfl⟩ := hStep
      exact h.childMoves rfl rfl rfl hAlive nofun
  | readMapsDone =>
    cases result with
    | error e =>
      simp only [hChild] at hStep
      cases hStep
      exact h.dies _
    | ok u =>
      simp only [hChild, Option.map_eq_some_iff] at hStep
      obtain ⟨_, hRead, rfl⟩ := hStep
      exact h.readMapsDone hAlive hRead
  | setup =>
    cases result with
    | error e =>
      simp only [hChild] at hStep
      cases hStep
      exact h.dies _
    | ok u =>
      simp only [hChild] at hStep
      cases hStep
      exact h.childMoves rfl rfl rfl hAlive fun _ => by rw [hChild]; rfl
  | raise =>
    cases result with
    | error e => simp [hChild] at hStep
    | ok u =>
      simp only [hChild] at hStep
      cases hStep
      exact h.childMoves rfl rfl rfl hAlive fun _ => by rw [hChild]; rfl

theorem deliver {sig : Signal} (h : Shaken ids config s) (hStep : s.deliver sig = some t) :
    Shaken ids config t := by
  obtain ⟨_, _, _, hAlive⟩ := Spawn.deliver_frame hStep
  unfold Spawn.deliver at hStep
  split at hStep
  · cases hStep
  split at hStep
  · cases hStep
    exact h.dies _
  split at hStep
  · split at hStep
    · cases hStep
      exact h.childMoves rfl rfl rfl hAlive id
    · cases hStep
  split at hStep
  · cases hStep
    exact h.childMoves rfl rfl rfl hAlive id
  · cases hStep
    exact h

theorem step {l : Label} (h : Shaken ids config s)
    (hStep : s.step texts ids config op l = some t) : Shaken ids config t := by
  cases l with
  | parent result => exact h.parentStep hStep
  | child result => exact h.childStep hStep
  | signal sig => exact h.deliver hStep
  | exits code =>
    simp only [Spawn.step] at hStep
    split at hStep
    · cases hStep
      exact h.dies _
    · cases hStep

theorem reach {ok : Spawn → Label → Prop} (h : (system texts ids config op).Reach ok s) :
    Shaken ids config s :=
  h.invariant (fun _ hInit => hInit ▸ cloned) fun _ _ _ _ hs _ hStep => hs.step hStep

end Shaken

/-! ## What is left behind -/

def Parent.settingUp : Parent → Bool
  | .readReady | .mapRootUser _ | .writeMapsDone | .spawnRelays | .waitChild | .setOptions => true
  | _ => false

/-- The child waits for a byte that nobody will write. -/
structure Abandoned (s : Spawn) : Prop where
  exited : ∃ result, s.parent = .exited result
  waits : s.child = .readMapsDone
  empty : s.mapsDone.unread = []
  holds : .child ∈ s.mapsDone.writers

namespace Spawn

variable {texts ids config op} {s t : Spawn}

theorem parentStep_settingUp {result : Except Errno Unit}
    (hStep : s.parentStep texts ids config op result = some t)
    (hNext : t.parent.settingUp = true) : s.parent.settingUp = true ∧ t.exitKill = s.exitKill := by
  cases parentStep_turn hStep with
  | starts _ hParent | maps hParent | mapped hParent | tells hParent _ =>
    exact ⟨by rw [hParent]; rfl, rfl⟩
  | goes hParent hFollows =>
    cases hFollows with
    | relays | wait | stopped => exact ⟨by rw [hParent]; rfl, rfl⟩
    | fifo | run | byte | rewrite | supervise => cases hNext
  | attaches _ | resumes _ | givesUp _ _ => cases hNext
  | exits _ =>
    unfold parentExits at hNext
    split at hNext
    · cases hNext
    · cases hNext

theorem exitKill_of_settingUp {ok : Spawn → Label → Prop}
    (h : (system texts ids config op).Reach ok s) :
    s.parent.settingUp = true → s.exitKill = false := by
  refine h.invariant (I := fun s => s.parent.settingUp = true → s.exitKill = false)
    (fun _ hInit _ => by rw [hInit]; rfl) fun s l t _ hUnset _ hStep => ?_
  have hStep : s.step texts ids config op l = some t := hStep
  cases l with
  | parent result =>
    intro hNext
    obtain ⟨hBefore, hKill⟩ := parentStep_settingUp hStep hNext
    rw [hKill]
    exact hUnset hBefore
  | child result | exits code | signal sig =>
    obtain ⟨hParent, hKill, _⟩ := step_frame (fun _ hEq => by cases hEq) hStep
    rw [hParent, hKill]
    exact hUnset

/-- The other direction: each step left out above, if it is the parent's next, ends it with the
init alive. -/
theorem outlives_of_unattended {ok : Spawn → Label → Prop} {l : Label}
    (h : (system texts ids config op).Reach ok s) (hNot : ¬ Attended s l)
    (hStep : s.step texts ids config op l = some t) :
    ∃ u failure, t.step texts ids config op (.parent (.ok ())) = some u ∧
      u.parent = .exited (some failure) ∧ u.Alive := by
  simp only [Attended, Classical.not_imp] at hNot
  obtain ⟨hAlive, hNot⟩ := hNot
  have hEnds {failure : Failure} (hUnset : s.exitKill = false)
      (ht : t = { s with parent := .ending (some failure) }) :
      ∃ u failure, t.step texts ids config op (.parent (.ok ())) = some u ∧
        u.parent = .exited (some failure) ∧ u.Alive := by
    subst ht
    refine ⟨_, failure, rfl, ?_, ?_⟩
    · simp [parentExits, hUnset]
    · simp only [parentExits, hUnset, Bool.false_eq_true, false_and, if_false]
      exact alive_of_eq rfl hAlive
  cases l with
  | child result | exits code | signal sig => exact absurd trivial hNot
  | parent result =>
    cases result with
    | error e =>
      simp only [Bool.not_eq_false] at hNot
      have hUnset (hSetting : s.parent.settingUp = true) := exitKill_of_settingUp h hSetting
      simp only [step] at hStep
      cases hParent : s.parent with
      | mapRootUser rest =>
        cases rest with
        | nil => simp [hParent, Parent.exposed] at hNot
        | cons entry rest =>
          simp only [parentStep, hParent] at hStep
          cases hStep
          exact hEnds (hUnset (by rw [hParent]; rfl)) rfl
      | spawnRelays | waitChild | setOptions =>
        simp only [parentStep, hParent] at hStep
        cases hStep
        exact hEnds (hUnset (by rw [hParent]; rfl)) rfl
      | readReady | writeMapsDone | writeState | openFifo | readByte | rewriteState | supervise
      | ending failure | exited failure => simp [hParent, Parent.exposed] at hNot
    | ok u =>
      simp only [Classical.not_imp] at hNot
      obtain ⟨hParent, hStop⟩ := hNot
      have hUnset := exitKill_of_settingUp h (by rw [hParent]; rfl)
      simp only [step, parentStep, hParent, Option.map_eq_some_iff] at hStep
      obtain ⟨status, hStatus, ht⟩ := hStep
      rw [status_of_alive hAlive, Option.map_eq_some_iff] at hStatus
      obtain ⟨sig, hSig, rfl⟩ := hStatus
      split at ht
      · rename_i hOwn
        obtain ⟨_, rfl⟩ := WaitStatus.stopped.inj hOwn
        exact absurd hSig hStop
      · cases ‹WaitStatus.stopped _ _ = .exited _ _›
      · exact hEnds hUnset ht.symm

/-- Nothing but `SIGKILL` and an interrupted read ends the wait. -/
theorem Abandoned.step {l : Label} (h : Abandoned s) (hKill : l ≠ .signal .SIGKILL)
    (hInterrupt : ∀ e, l ≠ .child (.error e))
    (hStep : s.step texts ids config op l = some t) : Abandoned t ∧ t.Alive := by
  have keeps (hParent : t.parent = s.parent) (hChild : t.child = s.child)
      (hPipe : t.mapsDone = s.mapsDone) : Abandoned t ∧ t.Alive := by
    refine ⟨⟨by rw [hParent]; exact h.exited, by rw [hChild]; exact h.waits,
      by rw [hPipe]; exact h.empty, by rw [hPipe]; exact h.holds⟩, ?_⟩
    simp [Alive, hChild, h.waits]
  have hAlive : s.Alive := by simp [Alive, h.waits]
  cases l with
  | parent result =>
    obtain ⟨failure, hExited⟩ := h.exited
    simp [Spawn.step, parentStep, hExited] at hStep
  | child result =>
    cases result with
    | error e => exact absurd rfl (hInterrupt e)
    | ok u =>
      simp only [Spawn.step, childStep, h.waits] at hStep
      split at hStep
      · cases hStep
      · obtain ⟨_, hRead, rfl⟩ := Option.map_eq_some_iff.mp hStep
        exact absurd h.empty (Pipe.unread_ne_nil_of_read hRead h.holds)
  | exits code => simp [Spawn.step, h.waits] at hStep
  | signal sig =>
    have hSig : sig ≠ .SIGKILL := fun hEq => hKill (by rw [hEq])
    simp only [Spawn.step, deliver, hAlive, not_true_eq_false, if_false, if_neg hSig] at hStep
    split at hStep
    · split at hStep <;> cases hStep
      exact keeps rfl rfl rfl
    · split at hStep <;> cases hStep
      · exact keeps rfl rfl rfl
      · exact keeps rfl rfl rfl

/-- As long as none of these calls fails and nothing but its own stop is met while the init lives,
an init does not outlive the process that spawned it; and however the calls come out, a child past
the handshake has its maps. -/
theorem reaped_with_parent (s : Spawn) :
    (∀ result, (system texts ids config op).Reach Attended s → s.parent = .exited result →
      ¬ s.Alive) ∧
    ((system texts ids config op).Reach System.free s → s.child.pastHandshake = true →
      s.MapsWritten ids config) := by
  refine ⟨fun result hReach hExited hAlive => ?_, fun hReach hPast => ?_⟩
  · have hTied := Tied.reach hReach hAlive
    rw [hExited] at hTied
    exact hTied
  · exact (Shaken.reach hReach).told (.inr hPast)

/-- The init gets as far as its stop; then `state.json` cannot be written. -/
def unrecorded : List Label :=
  [.child (.ok ()), .parent (.ok ()), .parent (.ok ()), .parent (.ok ()), .parent (.ok ()),
    .parent (.ok ()), .parent (.ok ()), .parent (.ok ()), .child (.ok ()), .child (.ok ()),
    .child (.ok ()), .parent (.ok ()), .parent (.ok ()), .parent (.error 28)]

def plainTexts : Texts := ⟨fun _ => "", fun _ => ""⟩

def plainIds : Ids := ⟨1000, 1000, 100⟩

def plainConfig : OciConfig where
  ociVersion := "1.0.2"
  root := { path := "rootfs" }
  process := some { args := some ["/bin/sh"] }

theorem reaped_with_parent_unrecorded : ∃ s,
    ((system plainTexts plainIds plainConfig .run).Reach System.free s ∧
      s.child.pastHandshake = true ∧ s.MapsWritten plainIds plainConfig) ∧
    ∃ t, (system plainTexts plainIds plainConfig .run).Reach Attended t ∧
      t.parent = .exited (some (.error (.state (.io 28)))) ∧ ¬ t.Alive := by
  have hRun : ((system plainTexts plainIds plainConfig .run).exec Attended .cloned
      unrecorded).map (fun s => s.child.pastHandshake) = some true := by decide +kernel
  obtain ⟨s, hExec, hPast⟩ := Option.map_eq_some_iff.mp hRun
  have hEnd : ((system plainTexts plainIds plainConfig .run).exec Attended .cloned
      (unrecorded ++ [.parent (.ok ())])).map (fun s => s.parent) =
        some (.exited (some (.error (.state (.io 28))))) := by decide +kernel
  obtain ⟨t, hExec', hExited⟩ := Option.map_eq_some_iff.mp hEnd
  have hReach := (System.reach_of_exec rfl hExec).mono fun _ _ _ => trivial
  have hReach' := System.reach_of_exec rfl hExec'
  exact ⟨s, ⟨hReach, hPast, (reaped_with_parent s).2 hReach hPast⟩, t, hReach', hExited,
    (reaped_with_parent t).1 _ hReach' hExited⟩

/-- The write of `gid_map` is refused. -/
def refused : List Label :=
  [.child (.ok ()), .parent (.ok ()), .parent (.ok ()), .parent (.error 1), .parent (.ok ())]

theorem not_reaped_with_parent : ¬ ∀ (texts : Texts) (ids : Ids) (config : OciConfig)
    (op : Operation) (s : Spawn) (failure : Failure),
    (system texts ids config op).Reach System.free s → s.parent = .exited (some failure) →
      ¬ s.Alive := by
  intro hAll
  have hRun : ((system plainTexts plainIds plainConfig .run).exec System.free .cloned
      refused).map (fun s => (s.parent, decide s.Alive)) =
        some (.exited (some (.error (.config
          "user namespace setup failed: write gid_map failed: "))), true) := by decide +kernel
  obtain ⟨s, hExec, hEnd⟩ := Option.map_eq_some_iff.mp hRun
  simp only [Prod.mk.injEq, decide_eq_true_eq] at hEnd
  exact hAll plainTexts plainIds plainConfig .run s _ (System.reach_of_exec rfl hExec) hEnd.1 hEnd.2

end Spawn

end Dtrun.Spawning
