import Mathlib.Logic.Equiv.Basic
import Dtrun.Supervisor.Renaming
import Dtrun.Supervisor.Spaces

/-! # A program under the supervisor

A program of threads is deterministic as long as one of its threads runs at a time. It names its
threads by the order of their creation; which pids a host gives them, when a new thread comes to
its attach stop and in what order the threads of an ended group go are the host's choice.
-/
namespace Dtrun
set_option autoImplicit false
open FiniteMap Transition Supervisor

/-- The status reports a new task. -/
def WaitStatus.creates : WaitStatus → Bool
  | .ptraceEvent _ _ event => event.creates
  | _ => false

structure Program where
  State : Type
  start : State
  /-- What a thread that is let run does next, up to its next stop or its death. -/
  next : State → Pid → Option (WaitStatus × State)
  own : ∀ S p status S', next S p = some (status, S') →
    status.stop = some p ∨ status.death = some p
  /-- What the kernel answers about the stopped threads. -/
  answers : State → Answers
  absorb : State → Effect → State
  /-- The code that the init leaves with once the group has been ended. -/
  exitCode : State → Int

def Program.settle (P : Program) (S : P.State) (effects : List Effect) : P.State :=
  effects.foldl P.absorb S

/-- The answers of a host that has given thread number `p` the pid `σ p`. -/
def Answers.rename (σ : Equiv.Perm Pid) (k : Answers) : Answers where
  syscallInfo p := k.syscallInfo (σ.symm p)
  getevent p := (k.getevent (σ.symm p)).map σ
  getregs p := k.getregs (σ.symm p)
  setregs p := k.setregs (σ.symm p)
  syscall p := k.syscall (σ.symm p)
  readMem p := k.readMem (σ.symm p)
  writeMem p := k.writeMem (σ.symm p)

def Report.rename (σ : Equiv.Perm Pid) (r : Report) : Report :=
  ⟨r.status.map (WaitStatus.rename σ.toEmbedding), r.answers.rename σ⟩

theorem Answers.renames_rename (σ : Equiv.Perm Pid) (k : Answers) :
    k.Renames σ.toEmbedding (k.rename σ) := by
  constructor <;> intro p <;> simp [Answers.rename]

theorem Report.renames_rename (σ : Equiv.Perm Pid) (r : Report) :
    r.Renames σ.toEmbedding (r.rename σ) := ⟨rfl, r.answers.renames_rename σ⟩

@[simp] theorem WaitStatus.stop_rename (ρ : Pid ↪ Pid) (status : WaitStatus) :
    (status.rename ρ).stop = status.stop.map ρ := by
  cases status <;> rfl

@[simp] theorem WaitStatus.death_rename (ρ : Pid ↪ Pid) (status : WaitStatus) :
    (status.rename ρ).death = status.death.map ρ := by
  cases status <;> rfl

/-- A host on which the program is under way. -/
structure Position (P : Program) where
  world : World
  state : P.State
  /-- The number of threads created so far. -/
  born : Nat

/-- What happens next. A thread is named by its number, save in the reports after the end of the
group, which come as the kernel pleases. -/
inductive Move where
  | spawn (p : Pid)
  | exec (p : Pid)
  | attach (p : Pid)
  | stop (p : Pid)
  | last (r : Report)

namespace Position

variable {P : Program} (σ : Equiv.Perm Pid)

/-- The requests of the last pass, in the program's terms. -/
def requests (w : World) : List Effect := w.machine.sv.effects.map (Effect.rename σ.symm.toEmbedding)

def start (seed : U64) : Position P :=
  let w := World.start (σ 0) seed ((P.answers P.start).rename σ)
  ⟨w, P.settle P.start (requests σ w), 1⟩

def Runs (x : Position P) (p : Pid) : Prop :=
  x.world.tracees.phase (σ p) = some .released ∨ x.world.tracees.phase (σ p) = some .exiting

instance (x : Position P) (p : Pid) : Decidable (x.Runs σ p) := inferInstanceAs (Decidable (_ ∨ _))

def Ended (x : Position P) : Prop := x.world.machine.sv.groupExiting = true

instance (x : Position P) : Decidable x.Ended := inferInstanceAs (Decidable (_ = _))

def Creating (x : Position P) (p : Pid) : Prop :=
  ∃ q sig event S, P.next x.state p = some (.ptraceEvent q sig event, S) ∧ event.creates = true

theorem creating_iff (x : Position P) (p : Pid) :
    x.Creating p ↔ (P.next x.state p).any (fun next => next.1.creates) = true := by
  constructor
  · rintro ⟨q, sig, event, S, hNext, hEvent⟩
    simpa [hNext, WaitStatus.creates] using hEvent
  · intro h
    cases hNext : P.next x.state p with
    | none =>
      rw [hNext] at h
      cases h
    | some next =>
      obtain ⟨status, S⟩ := next
      rw [hNext] at h
      cases status with
      | ptraceEvent q sig event => exact ⟨q, sig, event, S, hNext, h⟩
      | _ => cases h

instance (x : Position P) (p : Pid) : Decidable (x.Creating p) :=
  decidable_of_iff _ (x.creating_iff p).symm

/-- The status is reported while the program is in `S`. -/
def report (x : Position P) (status : WaitStatus) (S : P.State) : Option (Position P) :=
  (x.world.observe (Report.rename σ ⟨.ok status, P.answers S⟩)).map fun w =>
    ⟨w, P.settle S (requests σ w), x.born⟩

def step (x : Position P) : Move → Option (Position P)
  | .spawn p => (x.world.spawn (σ p) (σ x.born) true true).map fun w => ⟨w, x.state, x.born + 1⟩
  | .exec p => (x.world.exec (σ p)).map fun w => ⟨w, x.state, x.born⟩
  | .attach p => x.report σ (.stopped p .SIGSTOP) x.state
  | .stop p => (P.next x.state p).bind fun next => x.report σ next.1 next.2
  | .last r => (x.world.observe r).map fun w => ⟨w, x.state, x.born⟩

/-- After the end of the group the threads come to their exit stops, in which they may be resumed,
and die; the init leaves with the code of the program. -/
def Leaves (x : Position P) (k : Answers) : WaitStatus → Prop
  | .ptraceEvent p _ .exit => k.syscall p = .ok ()
  | .exited p code => p = σ 0 → code = P.exitCode x.state
  | .signaled p _ _ => p ≠ σ 0
  | _ => False

instance (x : Position P) (k : Answers) : (status : WaitStatus) → Decidable (x.Leaves σ k status)
  | .ptraceEvent _ _ .exit => inferInstanceAs (Decidable (_ = _))
  | .exited _ _ => inferInstanceAs (Decidable (_ → _))
  | .signaled _ _ _ => inferInstanceAs (Decidable (_ ≠ _))
  | .ptraceEvent _ _ .fork | .ptraceEvent _ _ .vfork | .ptraceEvent _ _ .clone
  | .ptraceEvent _ _ .exec | .ptraceEvent _ _ .vforkDone | .ptraceEvent _ _ .seccomp
  | .ptraceEvent _ _ .stop | .stopped _ _ | .ptraceSyscall _ | .continued _ | .stillAlive =>
    .isFalse id

/-- The rules that the host keeps to. Until the group has been ended a thread reports what the
program does, creates a thread when the program says so, and has called for one then; no pid is
given out while the supervisor holds it. After that the threads leave, the init last. -/
def Fair (x : Position P) : Move → Prop
  | .spawn p => ¬ x.Ended ∧ x.Creating p ∧ x.world.Unheld (.spawn (σ p) (σ x.born) true true)
  | .exec _ => True
  | .attach _ => ¬ x.Ended
  | .stop p => ¬ x.Ended ∧ x.Runs σ p ∧ (x.Creating p → x.world.machine.sv.notesThread (σ p))
  | .last r => x.Ended ∧ x.world.LeaderLast (.report r) ∧
      ∃ status, r.status = .ok status ∧ x.Leaves σ r.answers status

instance (x : Position P) : (m : Move) → Decidable (x.Fair σ m)
  | .spawn _ => inferInstanceAs (Decidable (_ ∧ _ ∧ _))
  | .exec _ => .isTrue trivial
  | .attach _ => inferInstanceAs (Decidable (¬ _))
  | .stop _ => inferInstanceAs (Decidable (_ ∧ _ ∧ (_ → _)))
  | .last ⟨.ok status, k⟩ =>
    decidable_of_iff (x.Ended ∧ x.world.LeaderLast (.report ⟨.ok status, k⟩) ∧
      x.Leaves σ k status) (by simp [Fair])
  | .last ⟨.error _, _⟩ => .isFalse (by simp [Fair])

end Position

/-- The program on a host that gives its threads the pids `σ 0`, `σ 1` and so on. -/
def Program.on (P : Program) (σ : Equiv.Perm Pid) (seed : U64) : System (Position P) Move where
  init x := x = Position.start σ seed
  step := Position.step σ

namespace Position

variable {P : Program} {σ : Equiv.Perm Pid} {seed : U64} {x y : Position P} {m : Move}

theorem report_eq_some {status : WaitStatus} {S : P.State} (h : x.report σ status S = some y) :
    x.world.observe (Report.rename σ ⟨.ok status, P.answers S⟩) = some y.world ∧
      y.state = P.settle S (requests σ y.world) ∧ y.born = x.born := by
  obtain ⟨w, hStep, rfl⟩ := Option.map_eq_some_iff.mp h
  exact ⟨hStep, rfl, rfl⟩

theorem stop_eq_some {p : Pid} (h : x.step σ (.stop p) = some y) :
    ∃ status S, P.next x.state p = some (status, S) ∧ x.report σ status S = some y := by
  obtain ⟨⟨status, S⟩, hNext, hReport⟩ := Option.bind_eq_some_iff.mp h
  exact ⟨status, S, hNext, hReport⟩

theorem step_world (hFair : x.Fair σ m) (h : x.step σ m = some y) :
    ∃ l, x.world.Unheld l ∧ x.world.step l = some y.world := by
  cases m with
  | spawn p =>
    obtain ⟨w, hStep, rfl⟩ := Option.map_eq_some_iff.mp h
    exact ⟨.spawn (σ p) (σ x.born) true true, hFair.2.2, hStep⟩
  | exec p =>
    obtain ⟨w, hStep, rfl⟩ := Option.map_eq_some_iff.mp h
    exact ⟨.exec (σ p), trivial, hStep⟩
  | attach p => exact ⟨.report _, trivial, (report_eq_some h).1⟩
  | stop p =>
    obtain ⟨_, _, _, hReport⟩ := stop_eq_some h
    exact ⟨.report _, trivial, (report_eq_some hReport).1⟩
  | last r =>
    obtain ⟨w, hStep, rfl⟩ := Option.map_eq_some_iff.mp h
    exact ⟨.report r, trivial, hStep⟩

theorem reach_world (h : (P.on σ seed).Reach (Fair σ) x) :
    (World.system (σ 0) seed).Reach World.Unheld x.world := by
  induction h with
  | init hInit =>
    cases hInit
    exact .init ⟨_, rfl⟩
  | step m _ hFair hStep ih =>
    obtain ⟨l, hUnheld, hNext⟩ := step_world hFair hStep
    exact ih.step l hUnheld hNext

end Position

end Dtrun
