import Dtrun.Supervisor.Agreement
import Dtrun.Supervisor.Delivery
import Dtrun.Supervisor.Named

/-! # Hosts that give a pid out again

A host gives a new thread any pid that no task has, be it new or that of a thread that is gone.
Which pid each thread has is then settled only as the program goes on.
-/
namespace Dtrun
set_option autoImplicit false
open FiniteMap StateExcept Transition Supervisor

/-- The status reports a signal, the attach stop included. -/
def WaitStatus.signals : WaitStatus → Bool
  | .stopped _ _ => true
  | _ => false

/-- In this stop `p` calls for a new thread. -/
def Answers.callsThread (k : Answers) (p : Pid) : Bool :=
  ((k.entry p).bind (cloneCall k p)).any fun info => info.flags &&& CLONE_THREAD ≠ 0

/-- A host on which the program is under way, and the pids of its threads. -/
structure Hosting (P : Program) where
  position : Position P
  /-- The pid of each thread, by number. The numbers that are not in use stand for the pids that are
  not. -/
  names : Equiv.Perm Pid
  /-- The thread whose last stop was at a call for a new one. -/
  caller : Option Pid

/-- What happens next, with the pid that the host gives to a new thread. -/
inductive Choice where
  | spawn (p c : Pid)
  | exec (p : Pid)
  | attach (p : Pid)
  | stop (p : Pid)
  | last (r : Report)

def Choice.move : Choice → Move
  | .spawn p _ => .spawn p
  | .exec p => .exec p
  | .attach p => .attach p
  | .stop p => .stop p
  | .last r => .last r

namespace Hosting

variable {P : Program}

def start (σ : Equiv.Perm Pid) (seed : U64) : Hosting P := ⟨Position.start σ seed, σ, none⟩

/-- The next thread number gets the pid `c`; the number that had it is no longer in use. -/
def named (h : Hosting P) : Choice → Equiv.Perm Pid
  | .spawn _ c => h.names.trans (Equiv.swap (h.names h.position.born) c)
  | _ => h.names

def called (h : Hosting P) : Choice → Option Pid
  | .stop p => match P.next h.position.state p with
    | some (.ptraceSyscall _, S) => if (P.answers S).callsThread p then some p else none
    | _ => none
  | _ => h.caller

def step (h : Hosting P) (a : Choice) : Option (Hosting P) :=
  (h.position.step (h.named a) a.move).map fun x => ⟨x, h.named a, h.called a⟩

/-- The init leaves with the code of the program. -/
def Leaves (h : Hosting P) : WaitStatus → Prop
  | .ptraceEvent _ _ .exit => True
  | .exited p code => p = h.names 0 → code = P.exitCode h.position.state
  | .signaled p _ _ => p ≠ h.names 0
  | _ => False

instance (h : Hosting P) : (status : WaitStatus) → Decidable (h.Leaves status)
  | .ptraceEvent _ _ .exit => .isTrue trivial
  | .exited _ _ => inferInstanceAs (Decidable (_ → _))
  | .signaled _ _ _ => inferInstanceAs (Decidable (_ ≠ _))
  | .ptraceEvent _ _ .fork | .ptraceEvent _ _ .vfork | .ptraceEvent _ _ .clone
  | .ptraceEvent _ _ .exec | .ptraceEvent _ _ .vforkDone | .ptraceEvent _ _ .seccomp
  | .ptraceEvent _ _ .stop | .stopped _ _ | .ptraceSyscall _ | .continued _ | .stillAlive =>
    .isFalse id

/-- The rules that the host keeps to. Until the group has been ended, a thread reports what the
program does and no signals, and creates a thread when the program says so, in a call for one. After
that the threads come to their exit stops and die in any order, the init last. -/
def Fair (h : Hosting P) : Choice → Prop
  | .spawn p _ => ¬ h.position.Ended ∧ h.position.Creating p
  | .exec _ => True
  | .attach _ => ¬ h.position.Ended
  | .stop p => ¬ h.position.Ended ∧ h.position.Runs h.names p ∧
      (h.position.Creating p → h.caller = some p) ∧
      ∀ next ∈ P.next h.position.state p, next.1.signals = false
  | .last r => h.position.Ended ∧ h.position.world.LeaderLast (.report r) ∧
      ∃ status, r.status = .ok status ∧ h.Leaves status

instance (h : Hosting P) : (a : Choice) → Decidable (h.Fair a)
  | .spawn _ _ => inferInstanceAs (Decidable (_ ∧ _))
  | .exec _ => .isTrue trivial
  | .attach _ => inferInstanceAs (Decidable (¬ _))
  | .stop _ => inferInstanceAs (Decidable (_ ∧ _ ∧ (_ → _) ∧ _))
  | .last ⟨.ok status, k⟩ =>
    decidable_of_iff (h.position.Ended ∧ h.position.world.LeaderLast (.report ⟨.ok status, k⟩) ∧
      h.Leaves status) (by simp [Fair])
  | .last ⟨.error _, _⟩ => .isFalse (by simp [Fair])

def result (h : Hosting P) : Option (Except SuperviseError Int) := h.position.world.machine.result

def trace (h : Hosting P) : List Record := h.position.world.machine.sv.trace

end Hosting

/-- The program on a host that starts with the pids `σ`. -/
def Program.hosted (P : Program) (σ : Equiv.Perm Pid) (seed : U64) : System (Hosting P) Choice where
  init h := h = Hosting.start σ seed
  step := Hosting.step

namespace Position

variable {P : Program} {σ : Equiv.Perm Pid} {seed : U64} {x y : Position P}

/-- Thread numbers are given out in order. -/
theorem numbered (h : (P.on σ seed).Reach (Fair σ) x) (q : Pid)
    (hLives : x.world.tracees.phase (σ q) ≠ none) : q < x.born := by
  refine System.Reach.invariant
    (I := fun x => ∀ q, x.world.tracees.phase (σ q) ≠ none → q < x.born) ?_ ?_ h q hLives
  · rintro _ rfl q hLives
    have hOld : (World.alone (σ 0)).phase (σ q) ≠ none := fun hEq =>
      hLives ((Tracees.phase_after_eq_none _ _ _).mpr hEq)
    rw [Tracees.phase, Tracees.task, World.alone, Map.get_singleton] at hOld
    split at hOld
    · rename_i hEq
      rw [σ.injective hEq]
      exact Int.one_pos
    · exact absurd rfl hOld
  · intro x m y _ hNumbered _ hStep q hLives
    have observed {r : Report} {w : World} (hObserve : x.world.observe r = some w)
        (hLives : w.tracees.phase (σ q) ≠ none) : q < x.born :=
      hNumbered q fun hGone => hLives (gone_observe hObserve hGone)
    cases m with
    | spawn p =>
      obtain ⟨w, hSpawn, rfl⟩ := Option.map_eq_some_iff.mp hStep
      simp only [World.spawn_phase hSpawn] at hLives
      simp only [Nat.cast_add, Nat.cast_one]
      split at hLives
      · rename_i hEq
        rw [σ.injective hEq]
        exact Int.lt_succ _
      · exact (hNumbered q hLives).trans (Int.lt_succ _)
    | exec p =>
      obtain ⟨w, hExec, rfl⟩ := Option.map_eq_some_iff.mp hStep
      rw [World.exec_phase hExec] at hLives
      exact hNumbered q hLives
    | attach p =>
      obtain ⟨hObserve, _, hBorn⟩ := report_eq_some hStep
      rw [hBorn]
      exact observed hObserve hLives
    | stop p =>
      obtain ⟨_, _, _, hReport⟩ := stop_eq_some hStep
      obtain ⟨hObserve, _, hBorn⟩ := report_eq_some hReport
      rw [hBorn]
      exact observed hObserve hLives
    | last r =>
      obtain ⟨w, hLast, rfl⟩ := Option.map_eq_some_iff.mp hStep
      exact observed hLast hLives

end Position

end Dtrun
