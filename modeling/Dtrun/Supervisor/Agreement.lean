import Dtrun.Supervisor.Appending
import Dtrun.Supervisor.Determinism

/-! # All hosts agree

Two hosts that run one program from one seed follow the same course. Their traces agree as far as
the shorter one goes, and when both supervisions have returned, in full.
-/
namespace Dtrun
set_option autoImplicit false
open FiniteMap StateExcept Transition Supervisor

namespace Course

variable {P : Program} {c c' : Course P}

theorem advance_trace (h : c.advance = some c') :
    c.machine.sv.trace <+: c'.machine.sv.trace := by
  simp only [advance] at h
  split at h
  · split at h
    · cases h
      exact Machine.step_trace _ _
    · obtain ⟨_, _, hNext⟩ := Option.bind_eq_some_iff.mp h
      obtain ⟨_, _, rfl⟩ := Option.map_eq_some_iff.mp hNext
      exact Machine.step_trace _ _
  · cases h

theorem reaches_trace (h : StateTransition.Reaches advance c c') :
    c.machine.sv.trace <+: c'.machine.sv.trace := by
  induction h with
  | refl => exact List.prefix_rfl
  | tail _ hStep ih => exact ih.trans (advance_trace hStep)

theorem left_trace (c : Course P) : c.machine.sv.trace <+: c.left.trace := by
  rw [left]
  split
  · exact List.prefix_append _ _
  · exact List.prefix_rfl

theorem outcome_trace (c : Course P) : c.machine.sv.trace <+: c.outcome.2 := by
  rw [outcome]
  split
  · exact List.prefix_rfl
  · simp only []
    split
    · exact List.prefix_append _ _
    · exact c.left_trace.trans (List.prefix_append _ _)

theorem advance_ended (hFlag : c.machine.sv.groupExiting = true) : c.advance = none := by
  simp [advance, hFlag]

end Course

namespace Position

variable {P : Program} {σ τ : Equiv.Perm Pid} {seed : U64} {x y : Position P} {c : Course P}

theorem Mirrors.congr (h : Mirrors σ x c) (hMachine : y.world.machine = x.world.machine)
    (hState : y.state = x.state)
    (hPhase : x.Ended → ∀ q, y.world.tracees.phase q = x.world.tracees.phase q) :
    Mirrors σ y c := by
  cases h with
  | level hLevel hSame hFlag => exact .level (hMachine.trans hLevel) (hState.trans hSame) hFlag
  | early hSeen hSame hOpen hFlag hAwaits hNew =>
    exact .early (hMachine.trans hSeen) (hState.trans hSame) hOpen hFlag hAwaits hNew
  | closing h =>
    obtain ⟨hSame, hStopped, hCaller, hRunning, hEnded, hCurrent, hAwaits, hWrites⟩ := h
    refine .closing ⟨hState.trans hSame, hStopped, hCaller, ?_, ?_, ?_, ?_, ?_⟩
    · rwa [hMachine]
    · rwa [Ended, hMachine]
    · rwa [hMachine]
    · rwa [hMachine]
    · rw [Writes, Writes, hMachine, hPhase hEnded]
      exact hWrites
  | finished hOpen hFlag hResult hTrace =>
    refine .finished hOpen hFlag ?_ ?_
    · rwa [hMachine]
    · rwa [hMachine]

/-- Reports that come as the kernel pleases come after the course has stopped. -/
theorem mirrors_last {r : Report} (h : Mirrors σ x c) (hReach : (P.on σ seed).Reach (Fair σ) x)
    (hFair : x.Fair σ (.last r)) (hStep : x.step σ (.last r) = some y) : Mirrors σ y c := by
  obtain ⟨_, hLast, _⟩ := Option.map_eq_some_iff.mp hStep
  obtain ⟨hRunning, _⟩ := World.observe_eq_some hLast
  have hEnded : x.world.machine.sv.groupExiting = true := hFair.1
  cases h with
  | level hMachine _ hFlag =>
    have hGoes := hFlag ((level_open hMachine).trans hRunning)
    rw [hMachine] at hEnded
    exact absurd hEnded (Bool.eq_false_iff.mp hGoes)
  | early hMachine _ _ hFlag _ _ =>
    rw [hMachine] at hEnded
    exact absurd hEnded (Bool.eq_false_iff.mp hFlag)
  | closing h => exact mirrors_closing h hReach hFair hStep
  | finished _ _ hResult _ =>
    rw [hResult] at hRunning
    cases hRunning

/-- Every host follows the course. -/
theorem mirrors (h : (P.on σ seed).Reach (Fair σ) x) :
    ∃ c, StateTransition.Reaches Course.advance (Course.start P seed) c ∧ Mirrors σ x c := by
  refine System.Reach.invariant (I := fun x => ∃ c,
    StateTransition.Reaches Course.advance (Course.start P seed) c ∧ Mirrors σ x c) ?_ ?_ h
  · rintro _ rfl
    exact ⟨_, .refl, mirrors_start⟩
  · rintro x m y hReach ⟨c, hCourse, hMirrors⟩ hFair hStep
    have hReach' := hReach.step m hFair hStep
    cases m with
    | spawn p =>
      obtain ⟨w, hSpawn, rfl⟩ := Option.map_eq_some_iff.mp hStep
      exact ⟨c, hCourse, hMirrors.congr (World.spawn_machine hSpawn) rfl
        fun hEnded => absurd hEnded hFair.1⟩
    | exec p =>
      obtain ⟨w, hExec, rfl⟩ := Option.map_eq_some_iff.mp hStep
      exact ⟨c, hCourse, hMirrors.congr (World.exec_machine hExec) rfl
        fun _ => World.exec_phase hExec⟩
    | attach p =>
      obtain ⟨c', hNext, hMirrors'⟩ := mirrors_attach hMirrors hReach hFair hStep
      exact ⟨c', hCourse.trans hNext, hMirrors'⟩
    | stop p =>
      obtain ⟨c', hNext, hMirrors'⟩ := mirrors_stop hMirrors hReach hReach' hFair hStep
      exact ⟨c', hCourse.trans hNext, hMirrors'⟩
    | last r => exact ⟨c, hCourse, mirrors_last hMirrors hReach hFair hStep⟩

theorem Mirrors.trace_reaches (h : Mirrors σ x c) :
    c.machine.sv.trace <+: x.world.machine.sv.trace := by
  cases h with
  | level hMachine _ _ =>
    rw [hMachine]
    exact List.prefix_rfl
  | early hMachine _ _ _ _ _ =>
    rw [hMachine]
    exact List.prefix_rfl
  | closing h =>
    rcases h.writes with ⟨_, _, _, hTrace⟩ | ⟨_, _, _, hTrace⟩
    · rw [hTrace]
    · rw [hTrace]
      exact c.left_trace
  | finished _ _ _ hTrace =>
    rw [hTrace]
    exact c.outcome_trace

theorem Mirrors.trace_eq (h : Mirrors σ x c) (hGoes : c.advance ≠ none) :
    x.world.machine.sv.trace = c.machine.sv.trace := by
  cases h with
  | level hMachine _ _ => rw [hMachine]; rfl
  | early hMachine _ _ _ _ _ => rw [hMachine]; rfl
  | closing h => exact absurd (Course.advance_ended h.stopped.2) hGoes
  | finished _ hFlag _ _ => exact absurd (Course.advance_ended hFlag) hGoes

theorem Mirrors.trace_outcome (h : Mirrors σ x c) :
    x.world.machine.sv.trace <+: c.outcome.2 := by
  cases h with
  | level hMachine _ _ =>
    rw [hMachine]
    exact c.outcome_trace
  | early hMachine _ _ _ _ _ =>
    rw [hMachine]
    exact c.outcome_trace
  | closing h =>
    rcases h.writes with ⟨_, _, _, hTrace⟩ | ⟨hNot, _, _, hTrace⟩
    · rw [hTrace]
      exact c.outcome_trace
    · rw [hTrace, Course.outcome, h.stopped.1]
      simp only [h.caller, Option.some.injEq, hNot, if_false]
      exact List.prefix_append _ _
  | finished _ _ _ hTrace => rw [hTrace]

theorem Mirrors.returned {result : Except SuperviseError Int} (h : Mirrors σ x c)
    (hResult : x.world.machine.result = some result) :
    c.advance = none ∧ result = c.outcome.1 ∧ x.world.machine.sv.trace = c.outcome.2 := by
  cases h with
  | level hMachine _ _ =>
    have hDone := (level_open hMachine).trans hResult
    refine ⟨?_, ?_, ?_⟩
    · simp [Course.advance, hDone]
    · simp [Course.outcome, hDone]
    · rw [hMachine, Course.outcome, hDone]
      rfl
  | early hMachine _ hOpen _ _ _ =>
    rw [hMachine] at hResult
    cases hOpen.symm.trans hResult
  | closing h => cases h.running.symm.trans hResult
  | finished _ hFlag hOver hTrace =>
    exact ⟨Course.advance_ended hFlag, Option.some.inj (hResult.symm.trans hOver), hTrace⟩

theorem Mirrors.trace_total {c' : Course P} (h : Mirrors σ x c) (h' : Mirrors τ y c')
    (hAhead : StateTransition.Reaches Course.advance c c') :
    x.world.machine.sv.trace <+: y.world.machine.sv.trace ∨
      y.world.machine.sv.trace <+: x.world.machine.sv.trace := by
  by_cases hStops : c.advance = none
  · have hSame : c' = c :=
      (StateTransition.eval_maximal (StateTransition.mem_eval.mpr ⟨.refl, hStops⟩)).mp hAhead
    subst hSame
    exact List.prefix_or_prefix_of_prefix h.trace_outcome h'.trace_outcome
  · left
    rw [h.trace_eq hStops]
    exact (Course.reaches_trace hAhead).trans h'.trace_reaches

/-- Two hosts that have both come to the end have come to the same one. -/
theorem results_agree (hx : (P.on σ seed).Reach (Fair σ) x) (hy : (P.on τ seed).Reach (Fair τ) y)
    {result result' : Except SuperviseError Int} (hResult : x.world.machine.result = some result)
    (hResult' : y.world.machine.result = some result') :
    result = result' ∧ x.world.machine.sv.trace = y.world.machine.sv.trace := by
  obtain ⟨c, hCourse, hMirrors⟩ := mirrors hx
  obtain ⟨c', hCourse', hMirrors'⟩ := mirrors hy
  obtain ⟨hStops, rfl, hTrace⟩ := hMirrors.returned hResult
  obtain ⟨hStops', rfl, hTrace'⟩ := hMirrors'.returned hResult'
  have hSame : c = c' := Part.mem_unique (StateTransition.mem_eval.mpr ⟨hCourse, hStops⟩)
    (StateTransition.mem_eval.mpr ⟨hCourse', hStops'⟩)
  subst hSame
  exact ⟨rfl, hTrace.trans hTrace'.symm⟩

/-- Whatever two hosts choose, a program run from one seed writes the same trace on both as far as
both have come, and once both supervisions have returned, the traces and the results are equal. -/
theorem hosts_agree (hx : (P.on σ seed).Reach (Fair σ) x) (hy : (P.on τ seed).Reach (Fair τ) y) :
    (x.world.machine.sv.trace <+: y.world.machine.sv.trace ∨
      y.world.machine.sv.trace <+: x.world.machine.sv.trace) ∧
    ∀ result result', x.world.machine.result = some result →
      y.world.machine.result = some result' →
      result = result' ∧ x.world.machine.sv.trace = y.world.machine.sv.trace := by
  obtain ⟨c, hCourse, hMirrors⟩ := mirrors hx
  obtain ⟨c', hCourse', hMirrors'⟩ := mirrors hy
  refine ⟨?_, fun result result' hResult hResult' => results_agree hx hy hResult hResult'⟩
  rcases StateTransition.reaches_total hCourse hCourse' with hAhead | hAhead
  · exact hMirrors.trace_total hMirrors' hAhead
  · exact (hMirrors'.trace_total hMirrors hAhead).symm

/-- The init creates a thread, and the one of the two that runs then ends the group. -/
def twins : Program where
  State := Nat
  start := 0
  next S p := match S with
    | 0 | 2 | 3 => some (.ptraceSyscall p, S + 1)
    | 1 => some (.ptraceEvent p .SIGTRAP .clone, 2)
    | _ => none
  own S p status S' h := by
    split at h
    all_goals
      cases h
      try exact .inl rfl
  answers S := match S with
    | 1 => (Report.enters 0 { origRax := 56, rdi := threadFlags }).answers
    | 2 => (Report.created 0 .clone 1).answers
    | 3 => (Report.leaves 0).answers
    | _ => (Report.enters 0 { origRax := 231 }).answers
  absorb S _ := S
  exitCode _ := 7

/-- The pids of one host go up, those of the other go down. -/
def upwards : Equiv.Perm Pid := Equiv.addRight 100

def downwards : Equiv.Perm Pid := Equiv.subLeft 200

/-- The attach stop is awaited; both threads come to their exit stops. -/
def attachLate : List Move :=
  [.stop 0, .spawn 0, .stop 0, .attach 1, .stop 0, .stop 1,
   .last (.plain (.ptraceEvent 101 .SIGTRAP .exit)),
   .last (.plain (.ptraceEvent 100 .SIGTRAP .exit)), .last (.plain (.exited 101 0)),
   .last (.plain (.exited 100 7))]

/-- The attach stop comes first; the thread is killed after the init has come to its exit stop. -/
def attachEarly : List Move :=
  [.stop 0, .spawn 0, .attach 1, .stop 0, .stop 0, .stop 1,
   .last (.plain (.ptraceEvent 200 .SIGTRAP .exit)),
   .last (.plain (.signaled 199 .SIGKILL false)), .last (.plain (.exited 200 7))]

theorem hosts_agree_twins : ∃ x y : Position twins,
    (twins.on upwards 1).Reach (Fair upwards) x ∧
      (twins.on downwards 1).Reach (Fair downwards) y ∧
      x.world.machine.sv.trace.length = 7 ∧
      x.world.machine.sv.trace = y.world.machine.sv.trace := by
  have hLate : ((twins.on upwards 1).exec (Fair upwards) (start upwards 1) attachLate).map
      (fun x => (x.world.machine.sv.trace.length, x.world.machine.result.isSome)) =
      some (7, true) := by decide +kernel
  have hEarly : ((twins.on downwards 1).exec (Fair downwards) (start downwards 1) attachEarly).map
      (fun x => x.world.machine.result.isSome) = some true := by decide +kernel
  obtain ⟨x, hExec, hx⟩ := Option.map_eq_some_iff.mp hLate
  obtain ⟨y, hExec', hy⟩ := Option.map_eq_some_iff.mp hEarly
  simp only [Prod.mk.injEq] at hx
  obtain ⟨hLength, hDone⟩ := hx
  obtain ⟨result, hResult⟩ := Option.isSome_iff_exists.mp hDone
  obtain ⟨result', hResult'⟩ := Option.isSome_iff_exists.mp hy
  have hReach := System.reach_of_exec rfl hExec
  have hReach' := System.reach_of_exec rfl hExec'
  exact ⟨x, y, hReach, hReach', hLength,
    ((hosts_agree hReach hReach').2 result result' hResult hResult').2⟩

end Position

end Dtrun
