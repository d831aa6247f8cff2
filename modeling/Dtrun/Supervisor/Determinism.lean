import Mathlib.Computability.StateTransition
import Dtrun.Supervisor.Positions

/-! # One program, one trace

Which pids a host hands out, whether a new thread's attach stop comes before or after the clone
event and how the threads of an ended group go does not show: on all hosts a program leaves the
same records and the same exit code. Every host follows one course, at most an attach stop ahead.
-/
namespace Dtrun
set_option autoImplicit false
open FiniteMap StateExcept Transition Supervisor

/-! ## The course of a program -/

/-- The run of a program in its own terms: the numbers of the threads are their pids, and the attach
stop of a new thread is reported when it is awaited. -/
structure Course (P : Program) where
  machine : Machine
  state : P.State

namespace Course

variable {P : Program}

def report (c : Course P) (status : WaitStatus) (S : P.State) : Course P :=
  let m := c.machine.step ⟨.ok status, P.answers S⟩
  ⟨m, P.settle S m.sv.effects⟩

def start (P : Program) (seed : U64) : Course P :=
  let m := Machine.start 0 seed (P.answers P.start)
  ⟨m, P.settle P.start m.sv.effects⟩

/-- The course goes on until `supervise` returns or the group is ended. -/
def advance (c : Course P) : Option (Course P) :=
  if c.machine.result.isNone ∧ c.machine.sv.groupExiting = false then
    match c.machine.awaits with
    | w :: _ => some (c.report (.stopped w.child .SIGSTOP) c.state)
    | [] => c.machine.sv.current.bind fun p =>
      (P.next c.state p).map fun next => c.report next.1 next.2
  else none

theorem advance_stop {c : Course P} {p : Pid} {status : WaitStatus} {S : P.State}
    (hOpen : c.machine.result = none) (hFlag : c.machine.sv.groupExiting = false)
    (hAwaits : c.machine.awaits = []) (hCurrent : c.machine.sv.current = some p)
    (hNext : P.next c.state p = some (status, S)) : c.advance = some (c.report status S) := by
  simp [advance, hOpen, hFlag, hAwaits, hCurrent, hNext]

theorem advance_attach {c : Course P} {w : Await} {outer : List Await}
    (hOpen : c.machine.result = none) (hFlag : c.machine.sv.groupExiting = false)
    (hAwaits : c.machine.awaits = w :: outer) :
    c.advance = some (c.report (.stopped w.child .SIGSTOP) c.state) := by
  simp [advance, hOpen, hFlag, hAwaits]

def left (c : Course P) : Supervisor :=
  match c.machine.sv.current.bind c.machine.sv.threads.get with
  | some thread => c.machine.sv.traceJson "thread_exit" [("tid", .num thread.vtid)]
  | none => c.machine.sv

/-- What `supervise` returns and has written when a course that has stopped is over. -/
def outcome (c : Course P) : Except SuperviseError Int × List Record :=
  match c.machine.result with
  | some result => (result, c.machine.sv.trace)
  | none =>
    let last := if c.machine.sv.current = some 0 then c.machine.sv else c.left
    (.ok (P.exitCode c.state), (last.traceLifecycle "exit" (P.exitCode c.state)).trace)

end Course

namespace Position

variable {P : Program} {σ : Equiv.Perm Pid} {seed : U64} {x y : Position P} {c : Course P}

/-- The last record is the one numbered `s.seq`, and all of them are those of `s`. -/
def Writes (x : Position P) (s : Supervisor) : Prop :=
  x.world.machine.sv.seq = s.seq ∧ x.world.machine.sv.trace = s.trace

/-- The group has been ended by thread `p`, and the course with it. The death of `p` is on record once
it has been reported. -/
structure Closing (σ : Equiv.Perm Pid) (x : Position P) (c : Course P) (p : Pid) : Prop where
  state : x.state = c.state
  stopped : c.machine.result = none ∧ c.machine.sv.groupExiting = true
  caller : c.machine.sv.current = some p
  running : x.world.machine.result = none
  ended : x.Ended
  current : x.world.machine.sv.current = some (σ p)
  awaits : x.world.machine.awaits = []
  writes : (x.world.machine.sv.threads.get (σ p) = c.machine.sv.threads.get p ∧
      x.world.tracees.phase (σ p) ≠ none ∧ x.Writes c.machine.sv) ∨
    (p ≠ 0 ∧ x.world.tracees.phase (σ p) = none ∧ x.Writes c.left)

/-- The position is where the course is, or ahead of it by an attach stop, or past its end. -/
inductive Mirrors (σ : Equiv.Perm Pid) (x : Position P) (c : Course P) : Prop
  | level (hMachine : x.world.machine = c.machine.rename σ.toEmbedding) (hState : x.state = c.state)
      (hFlag : c.machine.result = none → c.machine.sv.groupExiting = false)
  | early {p : Pid} (hMachine : x.world.machine = (c.machine.rename σ.toEmbedding).seen (σ p))
      (hState : x.state = c.state) (hOpen : c.machine.result = none)
      (hFlag : c.machine.sv.groupExiting = false) (hAwaits : c.machine.awaits = [])
      (hSeen : p ∉ c.machine.sv.stoppedPending)
  | closing {p : Pid} (h : Closing σ x c p)
  | finished (hOpen : c.machine.result = none) (hFlag : c.machine.sv.groupExiting = true)
      (hResult : x.world.machine.result = some c.outcome.1)
      (hTrace : x.world.machine.sv.trace = c.outcome.2)

theorem requests_rename {w : World} {m : Machine} (h : w.machine = m.rename σ.toEmbedding) :
    requests σ w = m.sv.effects := by
  have hBack (e : Effect) : Effect.rename σ.symm.toEmbedding (e.rename σ.toEmbedding) = e := by
    cases e <;> simp [Effect.rename]
  rw [requests, h]
  simp only [Machine.rename, Supervisor.rename, List.map_map]
  exact (List.map_congr_left fun e _ => hBack e).trans (List.map_id _)

theorem report_level {status : WaitStatus} {S : P.State}
    (hMachine : x.world.machine = c.machine.rename σ.toEmbedding)
    (hStep : x.report σ status S = some y) :
    y.world.machine = (c.report status S).machine.rename σ.toEmbedding ∧
      y.state = (c.report status S).state := by
  obtain ⟨hObserve, hState, _⟩ := report_eq_some hStep
  obtain ⟨_, _, hNext, _⟩ := World.observe_eq_some hObserve
  have hRenamed : y.world.machine = (c.report status S).machine.rename σ.toEmbedding := by
    rw [hNext, hMachine]
    exact Machine.step_rename c.machine (Report.renames_rename σ _)
  refine ⟨hRenamed, ?_⟩
  rw [hState, requests_rename hRenamed]
  rfl

theorem mirrors_start : Mirrors σ (start σ seed : Position P) (Course.start P seed) := by
  have hMachine : (start σ seed : Position P).world.machine =
      (Course.start P seed).machine.rename σ.toEmbedding :=
    Machine.start_rename 0 seed (Answers.renames_rename σ _)
  refine .level hMachine ?_ fun _ => ?_
  · exact congrArg (P.settle P.start) (requests_rename hMachine)
  · have hServices : (Course.start P seed).machine.services = ⟨0, false, Prng.new seed, 0, []⟩ :=
      Machine.start_services
    exact congrArg Services.groupExiting hServices

end Position

/-! ## The end of the group -/

section Ending

variable {k : Answers} {s t : Supervisor} {p q : Pid} {status : WaitStatus} {turn : Turn}

theorem exitGroup_granted {regs : Regs} (hEntry : k.entry p = some regs)
    (hCall : regs.origRax.toInt = SYS_exit_group) (hYes : s.isScheduled p = true)
    (hCurrent : s.current = some p) (h : pass k [] (.ptraceSyscall p) s = .ok turn t) :
    k.syscall p = .ok () := by
  simp only [Answers.entry] at hEntry
  split at hEntry
  · rename_i regs' hInfo hRegs
    cases hEntry
    have hRun : onSyscallEntry k p s = .ok false
        (({ s with groupExiting := true } : Supervisor).traceSyscall SYS_exit_group "pass") := by
      rw [onSyscallEntry, hRegs]
      simp only [ptraceResult, pure_bind, hCall]
      rfl
    have hResume : dispatchSyscall k p s = resumeThread k p
        (({ s with groupExiting := true } : Supervisor).traceSyscall SYS_exit_group "pass") := by
      have hNow : (({ s with groupExiting := true } : Supervisor).traceSyscall SYS_exit_group
          "pass").current = some p := hCurrent
      rw [dispatchSyscall, hInfo]
      simp only [ptraceResult, pure_bind]
      rw [bind_of_ok (get_apply s), if_neg (by simp [hYes])]
      refine (bind_of_ok hRun).trans ?_
      simp only [Bool.false_eq_true, if_false]
      rw [resumeCurrent, bind_of_ok (get_apply _), if_pos hNow]
    simp only [pass, runPass, bind_ok_iff, dispatch] at h
    obtain ⟨_, _, ⟨_, _, hDispatch, _⟩, _⟩ := h
    rw [hResume] at hDispatch
    exact (resumeThread_ok.mp hDispatch).1
  · cases hEntry

theorem onThreadExit_silent (s : Supervisor) (p : Pid) :
    (s.onThreadExit p false).seq = s.seq ∧ (s.onThreadExit p false).trace = s.trace := by
  simp only [onThreadExit]
  cases s.threads.get p with
  | none => exact ⟨rfl, rfl⟩
  | some thread =>
    simp only []
    rw [clearTidWake_frame]
    exact ⟨rfl, rfl⟩

theorem onThreadExit_record {thread : Thread} (h : s.threads.get p = some thread) :
    (s.onThreadExit p true).seq = (s.traceJson "thread_exit" [("tid", .num thread.vtid)]).seq ∧
      (s.onThreadExit p true).trace =
        (s.traceJson "thread_exit" [("tid", .num thread.vtid)]).trace := by
  simp only [onThreadExit, h]
  rw [clearTidWake_frame]
  exact ⟨rfl, rfl⟩

variable (hCurrent : s.current = some p)
include hCurrent

theorem pass_exit_stop {sig : Signal} (hOk : k.syscall q = .ok ()) :
    pass k [] (.ptraceEvent q sig .exit) s = .ok (.wait []) (s.resumed q) := by
  have hResume : resumeThread k q s = .ok () (s.resumed q) := resumeThread_ok.mpr ⟨hOk, rfl⟩
  have hDispatch : dispatch k (.ptraceEvent q sig .exit) s = .ok .next (s.resumed q) :=
    bind_of_ok hResume
  have hNow : (s.resumed q).current = some p := hCurrent
  exact (bind_of_ok hDispatch).trans (bind_of_ok (Standstill.runTail_ok hNow))

theorem pass_thread_death (hFlag : s.groupExiting = true) (hDeath : status.death = some q)
    (hOther : q ≠ s.pid) :
    pass k [] status s = .ok (.wait []) (s.onThreadExit q (s.current = some q)) := by
  have hNow : (s.onThreadExit q (s.current = some q)).current = some p := by
    rw [onThreadExit_frame]
    exact hCurrent
  have hDispatch : dispatch k status s = .ok .next (s.onThreadExit q (s.current = some q)) :=
    (dispatch_of_death hDeath hOther).trans (bind_of_ok (dispatchExit_exiting hFlag))
  exact (bind_of_ok hDispatch).trans (bind_of_ok (Standstill.runTail_ok hNow))

omit hCurrent in
theorem pass_init_death {code : Int} (hInit : q = s.pid) :
    pass k [] (.exited q code) s = .ok (.done code) (s.traceLifecycle "exit" code) := by
  have hDispatch : dispatch k (.exited q code) s =
      .ok (.exit code) (s.traceLifecycle "exit" code) := by
    rw [dispatch, bind_of_ok (get_apply s), if_pos hInit]
    rfl
  exact bind_of_ok hDispatch

end Ending

namespace Position

variable {P : Program} {σ : Equiv.Perm Pid} {seed : U64} {x y : Position P} {c : Course P}

theorem grouped (h : (P.on σ seed).Reach (Fair σ) x) (q g : Pid)
    (hGroup : x.world.tracees.group q = some g) : g = σ 0 := by
  refine System.Reach.invariant (I := fun x => ∀ q g, x.world.tracees.group q = some g → g = σ 0)
    ?_ ?_ h q g hGroup
  · rintro _ rfl q g hGroup
    have hOld : (World.alone (σ 0)).group q = some g := (Tracees.group_after _ _ _).symm.trans hGroup
    rw [Tracees.group, Tracees.task, World.alone, Map.get_singleton] at hOld
    split at hOld
    · exact (Option.some.inj hOld).symm
    · cases hOld
  · intro x m y _ hGrouped _ hStep q g hGroup
    have observed {r : Report} {w : World} (hObserve : x.world.observe r = some w)
        (hGroup : w.tracees.group q = some g) : g = σ 0 := by
      obtain ⟨_, _, _, hTracees⟩ := World.observe_eq_some hObserve
      rw [hTracees, Tracees.group_after, Tracees.group_observe] at hGroup
      split at hGroup
      · cases hGroup
      · exact hGrouped q g hGroup
    cases m with
    | spawn p =>
      obtain ⟨w, hSpawn, rfl⟩ := Option.map_eq_some_iff.mp hStep
      rw [World.spawn_group hSpawn] at hGroup
      split at hGroup
      · exact hGrouped (σ p) g hGroup
      · exact hGrouped q g hGroup
    | exec p =>
      obtain ⟨w, hExec, rfl⟩ := Option.map_eq_some_iff.mp hStep
      rw [World.exec_group hExec] at hGroup
      exact hGrouped q g hGroup
    | attach p => exact observed (report_eq_some hStep).1 hGroup
    | stop p =>
      obtain ⟨_, _, _, hReport⟩ := stop_eq_some hStep
      exact observed (report_eq_some hReport).1 hGroup
    | last r =>
      obtain ⟨w, hLast, rfl⟩ := Option.map_eq_some_iff.mp hStep
      exact observed hLast hGroup

theorem pid_eq (h : (P.on σ seed).Reach (Fair σ) x) : x.sv.pid = σ 0 :=
  World.pid_eq (reach_world h)

theorem allows_death {t : Tracees} {r : Report} {status : WaitStatus} {q : Pid}
    (hStatus : r.status = .ok status) (hDeath : status.death = some q)
    (hAllows : t.allows r = true) : t.phase q ≠ none := by
  have hLives : (t.task q).isSome = true := by
    cases status with
    | exited p code =>
      cases hDeath
      simpa [Tracees.allows, hStatus] using hAllows
    | signaled p sig core =>
      cases hDeath
      simpa [Tracees.allows, hStatus] using hAllows
    | _ => cases hDeath
  intro hGone
  rw [Tracees.phase, Option.map_eq_none_iff] at hGone
  rw [hGone] at hLives
  cases hLives

theorem gone_observe {r : Report} {w : World} {q : Pid} (h : x.world.observe r = some w)
    (hGone : x.world.tracees.phase q = none) : w.tracees.phase q = none := by
  obtain ⟨_, hAllows, _, hTracees⟩ := World.observe_eq_some h
  rw [hTracees, Tracees.phase_after_eq_none]
  cases hStatus : r.status with
  | error e =>
    rw [Tracees.observe, hStatus]
    exact hGone
  | ok status =>
    rcases Tracees.phase_observe (t := x.world.tracees) hStatus q with hSame | ⟨hStop | hDeath, _⟩
    · exact hSame.trans hGone
    · exact absurd hGone (Tracees.allows_stop hStatus hStop hAllows)
    · rw [Tracees.phase_observe_death hStatus hDeath, if_pos rfl]

theorem lives_observe {r : Report} {w : World} {status : WaitStatus} {q : Pid}
    (h : x.world.observe r = some w) (hStatus : r.status = .ok status)
    (hDeath : status.death ≠ some q) (hLives : x.world.tracees.phase q ≠ none) :
    w.tracees.phase q ≠ none := by
  obtain ⟨_, _, _, hTracees⟩ := World.observe_eq_some h
  rw [hTracees, ne_eq, Tracees.phase_after_eq_none]
  exact Tracees.phase_observe_ne_none hStatus hDeath hLives

namespace Closing

variable {p q : Pid} {r : Report} {w : World}

/-- The death of the init comes last and ends the supervision. -/
theorem init_death {code : Int} (h : Closing σ x c p) (hReach : (P.on σ seed).Reach (Fair σ) x)
    (hStep : x.world.observe r = some w) (hStatus : r.status = .ok (.exited (σ 0) code))
    (hLeader : x.world.LeaderLast (.report r)) (hCode : code = P.exitCode x.state) :
    w.machine.result = some c.outcome.1 ∧ w.machine.sv.trace = c.outcome.2 := by
  obtain ⟨hRunning, _, hMachine, _⟩ := World.observe_eq_some hStep
  rw [Machine.step_settle hRunning hStatus, h.awaits,
    pass_init_death (s := x.sv) (pid_eq hReach).symm] at hMachine
  have hOutcome : c.outcome = (.ok code,
      ((if p = 0 then c.machine.sv else c.left).traceLifecycle "exit" code).trace) := by
    simp only [Course.outcome, h.stopped.1, h.caller, Option.some.injEq, hCode, h.state]
  have hWrites : x.Writes (if p = 0 then c.machine.sv else c.left) := by
    rcases h.writes with ⟨_, hLives, hWrites⟩ | ⟨hOther, _, hWrites⟩
    · have hInit : p = 0 := by
        by_contra hne
        have hDeath : r.death = some (σ 0) := by
          rw [Report.death, hStatus]
          rfl
        obtain ⟨g, hGroup⟩ : ∃ g, x.world.tracees.group (σ p) = some g := by
          cases hTask : x.world.tracees.task (σ p) with
          | none =>
            rw [Tracees.phase, hTask] at hLives
            exact absurd rfl hLives
          | some task => exact ⟨task.group, by rw [Tracees.group, hTask]; rfl⟩
        cases grouped hReach _ _ hGroup
        exact hLeader.alone hDeath (fun hEq => hne (σ.injective hEq)) hGroup
      rw [if_pos hInit]
      exact hWrites
    · rw [if_neg hOther]
      exact hWrites
  rw [hMachine, hOutcome]
  refine ⟨rfl, ?_⟩
  simp only [Machine.settle, traceLifecycle, traceJson, hWrites.1, hWrites.2]

theorem exit_stop {sig : Signal} (h : Closing σ x c p) (hStep : x.world.observe r = some w)
    (hStatus : r.status = .ok (.ptraceEvent q sig .exit)) (hOk : r.answers.syscall q = .ok ()) :
    Closing σ ⟨w, x.state, x.born⟩ c p := by
  obtain ⟨hRunning, _, hMachine, _⟩ := World.observe_eq_some hStep
  have hCurrent : x.sv.current = some (σ p) := h.current
  rw [Machine.step_settle hRunning hStatus, h.awaits, pass_exit_stop hCurrent hOk] at hMachine
  refine ⟨h.state, h.stopped, h.caller, ?_, ?_, ?_, ?_, ?_⟩
  · rw [hMachine]
    rfl
  · rw [Ended, hMachine]
    exact h.ended
  · rw [hMachine]
    exact h.current
  · rw [hMachine]
    rfl
  · rcases h.writes with ⟨hThread, hLives, hWrites⟩ | ⟨hOther, hGone, hWrites⟩
    · refine .inl ⟨?_, lives_observe hStep hStatus (by simp [WaitStatus.death]) hLives, ?_⟩
      · rw [hMachine]
        exact hThread
      · rw [Writes, hMachine]
        exact hWrites
    · refine .inr ⟨hOther, gone_observe hStep hGone, ?_⟩
      rw [Writes, hMachine]
      exact hWrites

theorem thread_death {status : WaitStatus} (h : Closing σ x c p)
    (hReach : (P.on σ seed).Reach (Fair σ) x) (hStep : x.world.observe r = some w)
    (hStatus : r.status = .ok status) (hDeath : status.death = some q) (hOther : q ≠ σ 0) :
    Closing σ ⟨w, x.state, x.born⟩ c p := by
  obtain ⟨hRunning, hAllows, hMachine, hTracees⟩ := World.observe_eq_some hStep
  have hCurrent : x.sv.current = some (σ p) := h.current
  have hInit : q ≠ x.sv.pid := by rwa [pid_eq hReach]
  have hLast : x.sv.groupExiting = true := h.ended
  rw [Machine.step_settle hRunning hStatus, h.awaits,
    pass_thread_death hCurrent hLast hDeath hInit] at hMachine
  have hSv : w.machine.sv = x.sv.onThreadExit q (x.sv.current = some q) := by
    rw [hMachine]
    rfl
  have hFrame := onThreadExit_frame x.sv q (x.sv.current = some q)
  refine ⟨h.state, h.stopped, h.caller, ?_, ?_, ?_, ?_, ?_⟩
  · rw [hMachine]
    rfl
  · rw [Ended, hSv, hFrame]
    exact h.ended
  · rw [hSv, hFrame]
    exact h.current
  · rw [hMachine]
    rfl
  by_cases hCaller : q = σ p
  · subst hCaller
    have hRecord : decide (x.sv.current = some (σ p)) = true := decide_eq_true hCurrent
    rw [hRecord] at hSv
    rcases h.writes with ⟨hThread, _, hSeq, hTrace⟩ | ⟨hp, hGone, _⟩
    · refine .inr ⟨fun hEq => hOther (by rw [hEq]), ?_, ?_⟩
      · rw [hTracees, Tracees.phase_after_eq_none, Tracees.phase_observe_death hStatus hDeath,
          if_pos rfl]
      · rw [Writes, hSv, Course.left, h.caller, Option.bind_some, ← hThread]
        cases hKnown : x.world.machine.sv.threads.get (σ p) with
        | none =>
          have hForget : x.sv.onThreadExit (σ p) true = x.sv.forget (σ p) := by
            simp only [onThreadExit, hKnown]
          rw [hForget]
          exact ⟨hSeq, hTrace⟩
        | some thread =>
          obtain ⟨hSeq', hTrace'⟩ := onThreadExit_record (s := x.sv) hKnown
          rw [hSeq', hTrace']
          simp only [traceJson, hSeq, hTrace, and_self]
    · exact absurd hGone (allows_death hStatus hDeath hAllows)
  · have hSilent : decide (x.sv.current = some q) = false := by
      rw [hCurrent]
      exact decide_eq_false fun hEq => hCaller (Option.some.inj hEq).symm
    rw [hSilent] at hSv
    obtain ⟨hSeq, hTrace⟩ := onThreadExit_silent x.sv q
    have hKept (s : Supervisor) (hWrites : x.Writes s) :
        Writes (⟨w, x.state, x.born⟩ : Position P) s := by
      rw [Writes, hSv, hSeq, hTrace]
      exact hWrites
    rcases h.writes with ⟨hThread, hLives, hWrites⟩ | ⟨hp, hGone, hWrites⟩
    · refine .inl ⟨?_, lives_observe hStep hStatus ?_ hLives, hKept _ hWrites⟩
      · rw [hSv, onThreadExit_frame, Map.get_erase_ne _ fun hEq => hCaller hEq.symm]
        exact hThread
      · rw [hDeath]
        exact fun hEq => hCaller (Option.some.inj hEq)
    · exact .inr ⟨hp, gone_observe hStep hGone, hKept _ hWrites⟩

end Closing

theorem mirrors_closing {p : Pid} {r : Report} (h : Closing σ x c p)
    (hReach : (P.on σ seed).Reach (Fair σ) x) (hFair : x.Fair σ (.last r))
    (hStep : x.step σ (.last r) = some y) : Mirrors σ y c := by
  obtain ⟨w, hLast, rfl⟩ := Option.map_eq_some_iff.mp hStep
  obtain ⟨_, hLeader, status, hStatus, hRule⟩ := hFair
  cases status with
  | ptraceEvent q sig event =>
    cases event with
    | exit => exact .closing (h.exit_stop hLast hStatus hRule)
    | _ => exact hRule.elim
  | exited q code =>
    by_cases hInit : q = σ 0
    · subst hInit
      obtain ⟨hResult, hTrace⟩ := h.init_death hReach hLast hStatus hLeader (hRule rfl)
      exact .finished h.stopped.1 h.stopped.2 hResult hTrace
    · exact .closing (h.thread_death hReach hLast hStatus rfl hInit)
  | signaled q sig core => exact .closing (h.thread_death hReach hLast hStatus rfl hRule)
  | _ => exact hRule.elim

/-- Only a call of `exit_group` ends the group. -/
theorem ends {status : WaitStatus} {S : P.State} (hStep : x.report σ status S = some y)
    (hNot : ¬ x.Ended) (hEnded : y.Ended) : ∃ p regs, status = .ptraceSyscall p ∧
      ((P.answers S).rename σ).entry (σ p) = some regs ∧
      regs.origRax.toInt = SYS_exit_group := by
  obtain ⟨hOpen, _, hMachine, _⟩ := World.observe_eq_some (report_eq_some hStep).1
  have hServices : y.world.machine.sv.groupExiting = (x.world.machine.services.observe
      (Report.rename σ ⟨.ok status, P.answers S⟩)).groupExiting := by
    rw [hMachine]
    exact congrArg Services.groupExiting (Machine.step_services hOpen)
  rcases Services.groupExiting_observe (hServices.symm.trans hEnded) with
    hOld | ⟨q, regs, hEntry, hCall⟩
  · exact absurd hOld hNot
  · obtain ⟨hStatus, hRegs⟩ := Report.entry_eq_some.mp hEntry
    cases status with
    | ptraceSyscall p =>
      cases hStatus
      exact ⟨p, regs, rfl, hRegs, hCall⟩
    | _ => cases hStatus

theorem level_open (hMachine : x.world.machine = c.machine.rename σ.toEmbedding) :
    c.machine.result = x.world.machine.result := by
  rw [hMachine]
  rfl

theorem mirrors_attach {p : Pid} (h : Mirrors σ x c) (hReach : (P.on σ seed).Reach (Fair σ) x)
    (hFair : x.Fair σ (.attach p)) (hStep : x.step σ (.attach p) = some y) :
    ∃ c', StateTransition.Reaches Course.advance c c' ∧ Mirrors σ y c' := by
  obtain ⟨hRunning, hAllows, _, _⟩ := World.observe_eq_some (report_eq_some hStep).1
  have hBorn : x.world.tracees.phase (σ p) = some .newborn := Tracees.allows_attach rfl hAllows
  have hPlaced := placed hReach hRunning
  have hAwaiting := awaiting hReach hRunning
  have hOrderly := orderly hReach hRunning hFair
  cases h with
  | level hMachine hState hFlag =>
    have hOpen : c.machine.result = none := (level_open hMachine).trans hRunning
    rcases hOrderly.single with hNone | ⟨w, hOne⟩
    · refine ⟨c, .refl, ?_⟩
      rw [hNone] at hPlaced hAwaiting hOrderly
      have hSeen := attach_early hPlaced hAwaiting hOrderly hNone hStep
      refine .early (p := p) (hSeen.trans (by rw [hMachine]))
        ((attach_early_state hStep hSeen).trans hState) hOpen (hFlag hOpen) ?_ fun hMem => ?_
      · rw [hMachine] at hNone
        exact List.map_eq_nil_iff.mp hNone
      · refine (hPlaced.early (σ p) ?_).2.ne_newborn hBorn
        rw [sv, hMachine]
        exact Finset.mem_map_of_mem σ.toEmbedding hMem
    · rw [hOne] at hPlaced hAwaiting hOrderly
      have hChild : σ p = w.child := hOrderly.awaited hPlaced hAwaiting hBorn
      rw [hMachine] at hOne
      obtain ⟨w₀, hAwaits, rfl⟩ := List.map_eq_singleton_iff.mp hOne
      have hSame : p = w₀.child := σ.injective hChild
      subst hSame
      obtain ⟨hNext, hNextState⟩ := report_level hMachine hStep
      refine ⟨c.report (.stopped w₀.child .SIGSTOP) c.state,
        .single (Course.advance_attach hOpen (hFlag hOpen) hAwaits), .level ?_ ?_ fun _ => ?_⟩
      · rw [← hState]
        exact hNext
      · rw [← hState]
        exact hNextState
      · rw [← hState]
        by_contra hSet
        have hEnded : y.Ended := by
          rw [Ended, hNext]
          exact Bool.of_not_eq_false hSet
        obtain ⟨_, _, hCall, _⟩ := ends hStep hFair hEnded
        cases hCall
  | @early d hMachine _ _ _ hAwaits _ =>
    have hNone : x.world.machine.awaits = [] := by
      rw [hMachine]
      exact congrArg (List.map _) hAwaits
    have hSeen : σ d ∈ x.sv.stoppedPending := by
      rw [sv, hMachine]
      exact Finset.mem_insert_self _ _
    rw [hNone] at hPlaced hAwaiting hOrderly
    obtain ⟨hFresh, hStill⟩ := hPlaced.early _ hSeen
    obtain ⟨_, q, hCloned, hCurrent, _⟩ := attach_created hPlaced hAwaiting hOrderly hBorn
    obtain ⟨q', hCloned', _, hCurrent', _⟩ :=
      hOrderly.creator hPlaced hAwaiting hFresh hStill.ne_none
    cases hCurrent.symm.trans hCurrent'
    have hSame : σ d = σ p := Option.some.inj (hCloned'.symm.trans hCloned)
    rw [hSame] at hStill
    exact absurd hBorn hStill.ne_newborn
  | closing h => exact absurd h.ended hFair
  | finished _ _ hResult _ =>
    rw [hResult] at hRunning
    cases hRunning

theorem closing_call {p : Pid} {status : WaitStatus} {S : P.State}
    (hReach : (P.on σ seed).Reach (Fair σ) x) (hReach' : (P.on σ seed).Reach (Fair σ) y)
    (hFair : x.Fair σ (.stop p)) (hNext : P.next x.state p = some (status, S))
    (hStep : x.report σ status S = some y) (hOpen : y.world.machine.result = none)
    (hEnded : y.Ended) (hMachine : y.world.machine = c.machine.rename σ.toEmbedding)
    (hState : y.state = c.state) : Closing σ y c p := by
  obtain ⟨q, regs, rfl, hEntry, hCall⟩ := ends hStep hFair.1 hEnded
  obtain ⟨hObserve, _, _⟩ := report_eq_some hStep
  obtain ⟨_, hRunning, hAllows, hRead, _, _⟩ := World.observe_wait hObserve hOpen
  have hPlaced := placed hReach hRunning
  have hAwaiting := awaiting hReach hRunning
  have hOrderly := orderly hReach hRunning hFair.1
  have hReports := reports hFair hNext hStep
  obtain ⟨hCurrent, hNone⟩ := hOrderly.runs hPlaced hAwaiting hReports.runs
  have hSame : q = p := by
    rcases P.own x.state p _ S hNext with hStop | hDeath
    · exact Option.some.inj hStop
    · cases hDeath
  subst hSame
  have hYes : x.sv.isScheduled (σ q) = true :=
    hOrderly.scheduled _ (hPlaced.ran (Tracees.allows_syscall rfl hAllows)).1
  have hStepped := (World.observe_eq_some hObserve).2.2.1
  obtain ⟨_, hRead', hPass⟩ := Machine.step_pass hRunning (hStepped ▸ hOpen)
  cases hRead'
  rw [hNone, ← hStepped] at hPass
  have hOk := exitGroup_granted hEntry hCall hYes hCurrent hPass
  have hDone := hPass.symm.trans (pass_exitGroup [] hEntry hCall hYes hCurrent hOk)
  simp only [EStateM.Result.ok.injEq, Turn.wait.injEq] at hDone
  obtain ⟨hLeft, hSv⟩ := hDone
  have hNow : y.world.machine.sv.current = some (σ q) := by
    rw [hSv]
    exact hCurrent
  have hKnown : y.world.machine.sv.registered (σ q) = true := by
    rw [hSv]
    exact registered_of_isScheduled hYes
  refine ⟨hState, ⟨(level_open hMachine).trans hOpen, ?_⟩, ?_, hOpen, hEnded, hNow, hLeft,
    .inl ⟨?_, ?_, ?_⟩⟩
  · rw [Ended, hMachine] at hEnded
    exact hEnded
  · rw [hMachine] at hNow
    exact (current_rename c.machine.sv q).mp hNow
  · rw [hMachine]
    exact get_renameKeys σ.toEmbedding c.machine.sv.threads q
  · intro hGone
    obtain ⟨w, hw, _⟩ := (placed hReach' hOpen).absent _ hKnown hGone
    rw [hLeft] at hw
    cases hw
  · rw [Writes, hMachine]
    exact ⟨rfl, rfl⟩

/-- The thread whose attach stop has been seen is the one that the running thread announces next:
the course does in two steps what the host does in one. -/
theorem mirrors_announced {p d : Pid} {status : WaitStatus} {S : P.State}
    (hMachine : x.world.machine = (c.machine.rename σ.toEmbedding).seen (σ d))
    (hState : x.state = c.state) (hOpen : c.machine.result = none)
    (hFlag : c.machine.sv.groupExiting = false) (hAwaits : c.machine.awaits = [])
    (hSeen : d ∉ c.machine.sv.stoppedPending) (hPlaced : Placed x.sv [] x.world.tracees)
    (hAwaiting : Awaiting x.sv [] x.world.tracees)
    (hOrderly : Orderly x.sv [] x.world.tracees fun q => x.Creating (σ.symm q))
    (hReports : Reports x.sv x.world.tracees (fun q => x.Creating (σ.symm q))
      (Report.rename σ ⟨.ok status, P.answers S⟩) (status.rename σ.toEmbedding) (σ p))
    (hNot : ¬ x.Ended) (hNext : P.next x.state p = some (status, S))
    (hReport : x.report σ status S = some y) :
    ∃ c', StateTransition.Reaches Course.advance c c' ∧ Mirrors σ y c' := by
  have hCurrent := (hOrderly.runs hPlaced hAwaiting hReports.runs).1
  have hNoted : σ d ∈ x.sv.stoppedPending := by
    rw [sv, hMachine]
    exact Finset.mem_insert_self _ _
  obtain ⟨hFresh, hStill⟩ := hPlaced.early _ hNoted
  have hStart : σ d ∉ x.sv.pendingStart := by
    intro hStart
    rw [(hPlaced.starting _ hStart).1] at hFresh
    cases hFresh
  obtain ⟨_, hCloned, _, _, _⟩ := hOrderly.creator hPlaced hAwaiting hFresh hStill.ne_none
  obtain ⟨_, sig, event, hEvent, hCreates, hChild⟩ :=
    hReports.announces hOrderly hPlaced hAwaiting hCloned
  have hThread := hReports.notes sig event hEvent hCreates
  rw [sv, hMachine] at hFresh hStart hThread hCurrent
  have hNew : σ d ∉ (c.machine.rename σ.toEmbedding).sv.stoppedPending := fun hMem =>
    hSeen ((Finset.mem_map' σ.toEmbedding).mp hMem)
  have hIdle : (c.machine.rename σ.toEmbedding).awaits = [] := congrArg (List.map _) hAwaits
  obtain ⟨hFirst, hBoth⟩ := Machine.seen_step (m := c.machine.rename σ.toEmbedding) hOpen hIdle
    (congrArg Except.ok hEvent) hCreates hChild hFresh hStart hNew hThread
  have hNow : c.machine.sv.current = some p := (current_rename c.machine.sv p).mp hCurrent
  have hAdvance := Course.advance_stop hOpen hFlag hAwaits hNow (hState ▸ hNext)
  -- the clone event opens a call of `await_attach`
  have hRenamed : (c.machine.rename σ.toEmbedding).step (Report.rename σ ⟨.ok status, P.answers S⟩) =
      (c.report status S).machine.rename σ.toEmbedding :=
    Machine.step_rename c.machine (Report.renames_rename σ _)
  have hOpened := hRenamed.symm.trans hFirst
  have hOpen' : (c.report status S).machine.result = none := congrArg Machine.result hOpened
  have hFlag' : (c.report status S).machine.sv.groupExiting = false :=
    (congrArg (fun m : Machine => m.sv.groupExiting) hOpened).trans hFlag
  have hEffects : (c.report status S).machine.sv.effects = [] :=
    List.map_eq_nil_iff.mp (congrArg (fun m : Machine => m.sv.effects) hOpened)
  have hState' : (c.report status S).state = S := congrArg (P.settle S) hEffects
  obtain ⟨w, hAwaits', hAwaited⟩ := List.map_eq_singleton_iff.mp (congrArg Machine.awaits hOpened)
  have hChild' : w.child = d := σ.injective (congrArg Await.child hAwaited)
  -- and the attach stop returns from it
  have hAttach := Course.advance_attach hOpen' hFlag' hAwaits'
  rw [hChild', hState'] at hAttach
  have hReached : y.world.machine =
      ((c.report status S).report (.stopped d .SIGSTOP) S).machine.rename σ.toEmbedding := by
    rw [(World.observe_eq_some (report_eq_some hReport).1).2.2.1, hMachine, hBoth, hRenamed]
    exact Machine.step_rename _ (Report.renames_rename σ ⟨.ok (.stopped d .SIGSTOP), P.answers S⟩)
  refine ⟨_, .head hAdvance (.single hAttach), .level hReached ?_ fun _ => ?_⟩
  · rw [(report_eq_some hReport).2.1, requests_rename hReached]
    rfl
  · by_contra hSet
    have hEnded : y.Ended := by
      rw [Ended, hReached]
      exact Bool.of_not_eq_false hSet
    obtain ⟨_, _, rfl, _⟩ := ends hReport hNot hEnded
    cases hEvent

theorem mirrors_stop {p : Pid} (h : Mirrors σ x c) (hReach : (P.on σ seed).Reach (Fair σ) x)
    (hReach' : (P.on σ seed).Reach (Fair σ) y) (hFair : x.Fair σ (.stop p))
    (hStep : x.step σ (.stop p) = some y) :
    ∃ c', StateTransition.Reaches Course.advance c c' ∧ Mirrors σ y c' := by
  obtain ⟨status, S, hNext, hReport⟩ := stop_eq_some hStep
  obtain ⟨hRunning, hAllows, hStepped, _⟩ := World.observe_eq_some (report_eq_some hReport).1
  have hPlaced := placed hReach hRunning
  have hAwaiting := awaiting hReach hRunning
  have hOrderly := orderly hReach hRunning hFair.1
  have hReports := reports hFair hNext hReport
  obtain ⟨hCurrent, hNone⟩ := hOrderly.runs hPlaced hAwaiting hReports.runs
  cases h with
  | level hMachine hState hFlag =>
    have hOpen : c.machine.result = none := (level_open hMachine).trans hRunning
    have hAwaits : c.machine.awaits = [] := by
      rw [hMachine] at hNone
      exact List.map_eq_nil_iff.mp hNone
    have hNow : c.machine.sv.current = some p := by
      rw [sv, hMachine] at hCurrent
      exact (current_rename c.machine.sv p).mp hCurrent
    have hNext' : P.next c.state p = some (status, S) := hState ▸ hNext
    obtain ⟨hMachine', hState'⟩ := report_level hMachine hReport
    refine ⟨c.report status S,
      .single (Course.advance_stop hOpen (hFlag hOpen) hAwaits hNow hNext'), ?_⟩
    by_cases hEnded : y.world.machine.result = none ∧ y.Ended
    · exact .closing (closing_call hReach hReach' hFair hNext hReport hEnded.1 hEnded.2 hMachine'
        hState')
    · refine .level hMachine' hState' fun hOpen' => ?_
      by_contra hSet
      refine hEnded ⟨(level_open hMachine').symm.trans hOpen', ?_⟩
      rw [Ended, hMachine']
      exact Bool.of_not_eq_false hSet
  | early hMachine hState hOpen hFlag hAwaits hSeen =>
    rw [hNone] at hPlaced hAwaiting hOrderly
    exact mirrors_announced hMachine hState hOpen hFlag hAwaits hSeen hPlaced hAwaiting hOrderly
      hReports hFair.1 hNext hReport
  | closing h => exact absurd h.ended hFair.1
  | finished _ _ hResult _ =>
    rw [hResult] at hRunning
    cases hRunning

end Position

end Dtrun
