import Dtrun.Supervisor.Idling
import Dtrun.Supervisor.Turns

/-! # When the init thread ends before its other threads

`current` is given up at a system call stop or at the death of the thread it names. A leader that
has called `exit` reaches its exit stop but is not reported dead while other threads are left, so
from then on `current` names it, and whoever is in the queue or joins it is never let run.
-/
namespace Dtrun
set_option autoImplicit false
open FiniteMap StateExcept Transition Supervisor Fifo

variable {k : Answers} {s v : Supervisor} {t : Tracees} {p : Pid} {r : Report}
  {status : WaitStatus} {flow : Flow} {awaits awaits' : List Await}

def SYS_exit : Int := 60

/-- Whether the init's last system call stop was the entry of `exit`. -/
def ExitCall.note (pid : Pid) (called : Bool) (_ : World) : Label → Bool
  | .report r => match r.status with
    | .ok (.ptraceSyscall p) => if p = pid then match r.entry with
        | some (_, regs) => regs.origRax.toInt = SYS_exit
        | none => false
      else called
    | _ => called
  | _ => called

/-- The report makes a thread runnable: its attach stop, its clone event if that stop came first, or
the death of a task on whose word it is the first to wait. -/
def Supervisor.Readies (s : Supervisor) (r : Report) : Bool :=
  match r.status with
  | .ok (.ptraceEvent p _ event) => event.creates && match r.answers.getevent p with
      | .ok child => child ∈ s.stoppedPending ∧
          ((s.clonePending.get p).getD {}).flags &&& CLONE_THREAD ≠ 0
      | .error _ => false
  | .ok (.stopped p sig) => sig = .SIGSTOP ∧ s.isScheduled p = true
  | .ok (.exited p _) | .ok (.signaled p _ _) => s.clearsNobody p = false
  | .ok (.ptraceSyscall _) | .ok (.continued _) | .ok .stillAlive | .error _ => false

namespace Supervisor

/-- The dead have left the queue, and somebody has joined it exactly if `readies`. -/
def Joins (s v : Supervisor) (dead : Option Pid) (readies : Bool) : Prop :=
  ∃ joined, v.runnable = (s.runnable.filter fun q => dead ≠ some q) ++ joined ∧
    (joined ≠ [] ↔ readies = true)

theorem Joins.same {readies : Bool} (hSame : v.runnable = s.runnable) (hNot : readies = false) :
    Joins s v none readies := by
  refine ⟨[], ?_, ?_⟩
  · simpa using hSame
  · simp [hNot]

theorem Joins.when {P : Prop} [Decidable P] {readies : Bool}
    (hQueue : v.runnable = s.runnable ++ if P then [p] else []) (h : P ↔ readies = true) :
    Joins s v none readies := by
  refine ⟨if P then [p] else [], ?_, ?_⟩
  · rw [hQueue]
    simp
  · rw [← h]
    by_cases hP : P
    · simp [hP]
    · simp [hP]

end Supervisor

theorem release_joins {u : Unit} (h : release k p s = .ok u v) :
    v.runnable = s.runnable ++ if s.isScheduled p then [p] else [] := by
  rcases release_ok h with ⟨hYes, rfl⟩ | ⟨hNot, _, rfl⟩
  · rw [if_pos hYes]
    rfl
  · rw [if_neg (by simp [hNot])]
    exact (List.append_nil _).symm

theorem Registered.joins {child : Pid} {info : CloneInfo} (h : Registered k child info s v)
    (hFresh : s.registered child = false) : v.runnable = s.runnable ++
      if child ∈ s.stoppedPending ∧ info.flags &&& CLONE_THREAD ≠ 0 then [child] else [] := by
  cases h with
  | again hKnown =>
    rw [hFresh] at hKnown
    cases hKnown
  | released _ hStopped hRelease hQuiet =>
    rw [hQuiet.runnable, release_joins hRelease]
    simp [isScheduled, Map.get_insert_self, hStopped]
  | expected _ hStopped hQuiet =>
    rw [if_neg fun hBoth => hStopped hBoth.1, List.append_nil]
    exact hQuiet.runnable

/-! ## As long as `current` names the init -/

namespace Placed

variable (h : Placed s awaits t) (hCurrent : s.current = some s.pid)
  (hStatus : r.status = .ok status) (hAllows : t.allows r = true)
  (hNot : status ≠ .ptraceSyscall s.pid)

include h hCurrent hStatus hAllows hNot

/-- No other thread of the init's has run, so none comes to a system call stop. -/
theorem not_scheduled_call (hCall : status = .ptraceSyscall p) : s.isScheduled p = false := by
  by_contra hYes
  subst hCall
  have hSame := (h.ran (Tracees.allows_syscall hStatus hAllows)).2 (by simpa using hYes)
  cases hCurrent.symm.trans hSame
  exact hNot rfl

theorem current_dispatched (hDispatched : Dispatched r.answers s status flow v)
    (hFlow : ∀ code, flow ≠ .exit code) : v.current = s.current := by
  rcases hDispatched.current with hSame | ⟨q, hCall, hYes⟩ | ⟨q, hDeath, hNow, _⟩
  · exact hSame
  · rw [h.not_scheduled_call hCurrent hStatus hAllows hNot hCall] at hYes
    cases hYes
  · cases hCurrent.symm.trans hNow
    exact absurd rfl (hDispatched.death_ne hFlow hDeath)

theorem current_passed (hPassed : Passed r.answers s awaits status (.wait awaits') v) :
    v.current = s.current := by
  have tail {u : Supervisor} (hSame : u.current = s.current) (hTail : RunsOn r.answers u v) :
      v.current = s.current := by
    rcases hTail with ⟨hFree, _⟩ | ⟨_, rfl⟩
    · rw [hFree, hCurrent] at hSame
      cases hSame
    · exact hSame
  cases hPassed with
  | next hDispatched hTail =>
    exact tail (h.current_dispatched hCurrent hStatus hAllows hNot hDispatched (by simp)) hTail
  | again _ hDispatched =>
    exact h.current_dispatched hCurrent hStatus hAllows hNot hDispatched (by simp)
  | await hDispatched =>
    exact h.current_dispatched hCurrent hStatus hAllows hNot hDispatched (by simp)
  | attached hRelease hResume hTail =>
    have hSame := (resumeTask_current hResume).trans (release_frame hRelease).2.2
    rcases hTail with ⟨_, hTail⟩ | ⟨_, rfl⟩
    · exact tail hSame hTail
    · exact hSame

theorem not_deadlock (u : Supervisor) :
    pass r.answers awaits status s ≠ .error .deadlock u := by
  intro hPass
  obtain ⟨v, _, hHow⟩ := pass_deadlock hPass
  rcases hHow with ⟨hSearches, hFails⟩ | ⟨_, hDispatch, hFree⟩ | ⟨w, _, rfl, _, hRelease, hResume, hFree⟩
  · cases hSearches with
    | yield hYes =>
      rw [h.not_scheduled_call hCurrent hStatus hAllows hNot rfl] at hYes
      cases hYes
    | pick hYes =>
      rw [h.not_scheduled_call hCurrent hStatus hAllows hNot rfl] at hYes
      cases hYes
    | died hDeath hNow =>
      cases hCurrent.symm.trans hNow
      exact (dispatch_deadlock_death hDeath hFails).1 rfl
  · have hSame := h.current_dispatched hCurrent hStatus hAllows hNot (dispatch_ok hDispatch) (by simp)
    rw [hFree, hCurrent] at hSame
    cases hSame
  · have hSame : v.current = s.current :=
      (resumeTask_current hResume).trans (release_frame hRelease).2.2
    rw [hFree, hCurrent] at hSame
    cases hSame

end Placed

/-- The init is current and past its last system call. -/
structure Abandoned (s : Supervisor) (awaits : List Await) (t : Tracees) : Prop where
  placed : Placed s awaits t
  current : s.current = some s.pid
  dying : t.Dying s.pid

namespace Abandoned

variable (h : Abandoned s awaits t) (hStatus : r.status = .ok status) (hAllows : t.allows r = true)

include h hStatus hAllows

theorem not_call : status ≠ .ptraceSyscall s.pid := by
  rintro rfl
  exact (Tracees.allows_dying_task h.dying hAllows).1 hStatus

theorem dispatched (hDispatched : Dispatched r.answers s status flow v)
    (hFlow : ∀ code, flow ≠ .exit code) : Joins s v status.death (s.Readies r) := by
  cases hDispatched with
  | @syscall q v hHandled =>
    have hFree := h.placed.not_scheduled_call h.current hStatus hAllows (h.not_call hStatus hAllows) rfl
    cases hHandled with
    | concurrent _ hQuiet _ => exact .same hQuiet.runnable (by simp [Readies, hStatus])
    | wait hYes => rw [hFree] at hYes; cases hYes
    | entry hYes => rw [hFree] at hYes; cases hYes
    | stay hYes => rw [hFree] at hYes; cases hYes
    | yield hYes => rw [hFree] at hYes; cases hYes
    | pick hYes => rw [hFree] at hYes; cases hYes
  | @clone q child sig event u v flow hEvent hChild hRegister hDone =>
    have hFresh : s.registered child = false :=
      (h.placed.expected q child (Tracees.allows_creates hStatus hEvent hChild hAllows)).1
    have hJoins := hRegister.joins hFresh
    have hSame : v.runnable = u.runnable := by
      rcases hDone with ⟨_, _, rfl⟩ | ⟨_, _, hResume⟩
      · rfl
      · exact resumeTask_runnable hResume
    exact .when (hSame.trans hJoins) (by simp [Readies, hStatus, hEvent, hChild])
  | dying => exact .same rfl (by simp [Readies, hStatus, Event.creates])
  | event hEvent _ hResume =>
    exact .same (resumeTask_runnable hResume) (by simp [Readies, hStatus, hEvent])
  | @stopped q sig v hStop =>
    have hAlive := (Tracees.allows_dying_task h.dying hAllows).2.2
    cases hStop with
    | current hNow =>
      cases h.current.symm.trans hNow
      exact absurd hStatus (hAlive _)
    | attached _ hSig _ hRelease =>
      have hJoins := release_joins hRelease
      have hQueue : v.runnable = s.runnable ++ if s.isScheduled q then [q] else [] := hJoins
      exact .when hQueue (by simp [Readies, hStatus, hSig])
    | early _ hSig _ hUnknown =>
      refine .same rfl ?_
      simp [Readies, hStatus, not_isScheduled hUnknown]
    | again _ hSig hStart hKnown =>
      subst hSig
      exact absurd (h.placed.newborn q hKnown (Tracees.allows_attach hStatus hAllows)) hStart
    | signal hSig => exact .same rfl (by simp [Readies, hStatus, hSig])
    | noted hSig _ _ hQuiet => exact .same hQuiet.runnable (by simp [Readies, hStatus, hSig])
  | finished => exact absurd rfl (hFlow _)
  | @died status q v hDeath hOther hExit =>
    have hLeft : ∃ record, v = s.onThreadExit q record := by
      rcases dispatchExit_ok hExit with ⟨hNow, _, _⟩ | ⟨_, rfl⟩
      · cases h.current.symm.trans hNow
        exact absurd rfl hOther
      · exact ⟨_, rfl⟩
    obtain ⟨record, rfl⟩ := hLeft
    obtain ⟨joined, hJoined, hNone⟩ := onThreadExit_joins h.placed.parked.queued q record
    have hReadies : s.Readies r = ! s.clearsNobody q := by
      cases status with
      | exited p code =>
        cases hDeath
        simp [Readies, hStatus]
      | signaled p sig core =>
        cases hDeath
        simp [Readies, hStatus]
      | _ => cases hDeath
    refine ⟨joined, ?_, ?_⟩
    · rw [hJoined, hDeath]
      simp [eq_comm]
    · rw [hReadies, ne_eq, hNone]
      simp
  | idle hIdle =>
    rcases hIdle with ⟨q, rfl⟩ | rfl
    · exact .same rfl (by simp [Readies, hStatus])
    · exact .same rfl (by simp [Readies, hStatus])

/-- A status lets nobody run, and the queue only loses its dead and is joined at its back. -/
theorem passed (hPassed : Passed r.answers s awaits status (.wait awaits') v) :
    v.current = s.current ∧ Joins s v status.death (s.Readies r) := by
  have hSame := h.placed.current_passed h.current hStatus hAllows (h.not_call hStatus hAllows) hPassed
  have tail {u : Supervisor} (hTail : RunsOn r.answers u v) (hNow : u.current = s.current) :
      v = u := by
    rcases hTail with ⟨hFree, _⟩ | ⟨_, rfl⟩
    · rw [hFree, h.current] at hNow
      cases hNow
    · rfl
  refine ⟨hSame, ?_⟩
  cases hPassed with
  | next hDispatched hTail =>
    rw [tail hTail (h.placed.current_dispatched h.current hStatus hAllows
      (h.not_call hStatus hAllows) hDispatched (by simp))]
    exact h.dispatched hStatus hAllows hDispatched (by simp)
  | again _ hDispatched => exact h.dispatched hStatus hAllows hDispatched (by simp)
  | await hDispatched => exact h.dispatched hStatus hAllows hDispatched (by simp)
  | @attached w _ v₁ v₂ _ hRelease hResume hTail =>
    have hLast : v = v₂ := by
      rcases hTail with ⟨_, hTail⟩ | ⟨_, rfl⟩
      · exact tail hTail ((resumeTask_current hResume).trans (release_frame hRelease).2.2)
      · rfl
    have hQueue : v.runnable = s.runnable ++ if s.isScheduled w.child then [w.child] else [] := by
      have hJoins := release_joins hRelease
      rw [hLast]
      exact (resumeTask_runnable hResume).trans hJoins
    exact .when hQueue (by simp [Readies, hStatus])

end Abandoned

theorem dispatchSyscall_ends {regs : Regs} {u : Unit} (hEntry : k.entry p = some regs)
    (hCall : regs.origRax.toInt = SYS_exit) (hScheduled : s.isScheduled p = true)
    (h : dispatchSyscall k p s = .ok u v) : v.current = s.current := by
  have hOp := Answers.op_of_entry hEntry
  have hRegs := Answers.getregs_of_entry hEntry
  simp only [dispatchSyscall, bind_ok_iff, ptraceResult_ok, get_apply] at h
  obtain ⟨op, _, ⟨hNow, rfl⟩, _, _, ⟨⟩, h⟩ := h
  cases hOp.symm.trans hNow
  rw [if_neg (by simp [hScheduled])] at h
  simp only [bind_ok_iff] at h
  obtain ⟨b, t, hOn, h⟩ := h
  simp only [onSyscallEntry, bind_ok_iff, ptraceResult_ok] at hOn
  obtain ⟨other, _, ⟨hSame, rfl⟩, hOn⟩ := hOn
  cases hRegs.symm.trans hSame
  have other {n : Int} (hn : SYS_exit ≠ n) : regs.origRax.toInt ≠ n := hCall ▸ hn
  have neither {n m : Int} (hn : SYS_exit ≠ n) (hm : SYS_exit ≠ m) :
      ¬ (regs.origRax.toInt = n ∨ regs.origRax.toInt = m) := not_or.mpr ⟨other hn, other hm⟩
  rw [if_neg (other (by decide)), if_neg (neither (by decide) (by decide)),
    if_neg (other (by decide)), if_neg (other (by decide)), if_neg (other (by decide)),
    if_neg (neither (by decide) (by decide))] at hOn
  simp only [bind_ok_iff, modify_apply] at hOn
  obtain ⟨_, _, ⟨⟩, ⟨⟩⟩ := hOn
  rcases resumeCurrent_ok h with ⟨_, _, rfl⟩ | ⟨_, rfl⟩
  · rfl
  · rfl

theorem Passed.exit_runnable {sig : Signal} (hCurrent : s.current = some p)
    (h : Passed k s awaits (.ptraceEvent p sig .exit) (.wait awaits') v) :
    v.runnable = s.runnable := by
  have dying {u : Supervisor} {flow : Flow}
      (hDispatched : Dispatched k s (.ptraceEvent p sig .exit) flow u) : u = s.resumed p := by
    cases hDispatched with
    | clone hEvent => cases hEvent
    | dying => rfl
    | event _ hExit => exact absurd rfl hExit
    | finished hDeath => cases hDeath
    | died hDeath => cases hDeath
    | idle hIdle => rcases hIdle with ⟨_, hIdle⟩ | hIdle <;> cases hIdle
  cases h with
  | next hDispatched hTail =>
    obtain rfl := dying hDispatched
    rcases hTail with ⟨hFree, _⟩ | ⟨_, rfl⟩
    · cases hFree.symm.trans hCurrent
    · rfl
  | again _ hDispatched =>
    rw [dying hDispatched]
    rfl
  | await hDispatched =>
    rw [dying hDispatched]
    rfl

theorem pass_exit_current {regs : Regs} (hEntry : r.entry = some (p, regs))
    (hCall : regs.origRax.toInt = SYS_exit) (hScheduled : s.isScheduled p = true)
    (hCurrent : s.current = some p)
    (hPass : pass r.answers awaits (.ptraceSyscall p) s = .ok (.wait awaits') v) :
    v.current = some p := by
  have hAnswer := (Report.entry_eq_some.mp hEntry).2
  rcases pass_wait hPass with ⟨flow, u, hDispatch, _, hTail⟩ | ⟨_, _, _, _, _, hStop, _⟩
  · obtain ⟨_, _, hHandled, ⟨⟩⟩ := bind_ok_iff.mp hDispatch
    have hSame := (dispatchSyscall_ends hAnswer hCall hScheduled hHandled).trans hCurrent
    rcases hTail with rfl | ⟨hFree, _⟩ | ⟨_, rfl⟩
    · exact hSame
    · rw [hFree] at hSame
      cases hSame
    · exact hSame
  · cases hStop

namespace World

variable {pid : Pid} {seed : U64} {w : World} {x y : World × Bool} {l : Label}

theorem init_scheduled {ok : World → Label → Prop} (h : (system pid seed).Reach ok w)
    (hOpen : w.machine.result = none) : w.machine.sv.isScheduled pid = true := by
  refine System.Reach.invariant (I := fun w => w.machine.result = none →
    w.machine.sv.isScheduled pid = true) ?_ ?_ h hOpen
  · rintro _ ⟨k, rfl⟩ hOpen
    obtain ⟨_, hPicks⟩ := Machine.start_wait hOpen
    change (Machine.start pid seed k).sv.isScheduled pid = true
    rw [isScheduled_of_threads hPicks.threads]
    simp [Machine.fresh, isScheduled, Map.get_singleton]
  · intro w l w' hReach hScheduled _ hStep hOpen
    cases l with
    | spawn p c thread vm =>
      rw [spawn_machine hStep] at hOpen ⊢
      exact hScheduled hOpen
    | exec p =>
      rw [exec_machine hStep] at hOpen ⊢
      exact hScheduled hOpen
    | report r =>
      obtain ⟨status, hRunning, _, _, _, hPassed⟩ := observe_wait hStep hOpen
      have hOld := hScheduled hRunning
      rcases hPassed.lookup pid with hSame | hDeath | ⟨hUnknown, _⟩
      · rw [isScheduled, hSame]
        exact hOld
      · exact absurd (pid_eq hReach).symm (hPassed.death_ne hDeath)
      · exact absurd hOld (not_isScheduled hUnknown)

/-- The supervisor with its container, and an observer of the init's calls beside them. -/
def exitSystem (pid : Pid) (seed : U64) : System (World × Bool) Label :=
  (system pid seed).observed (ExitCall.note pid) false

/-- The init has called `exit` and has been reported in its exit stop. -/
def Ended (pid : Pid) (x : World × Bool) : Prop := x.2 = true ∧ x.1.tracees.Dying pid

/-- Leaders die last, and no new task gets a pid that is still held. -/
def Leaves (x : World × Bool) (l : Label) : Prop := x.1.LeaderLast l ∧ x.1.Unheld l

instance (x : World × Bool) (l : Label) : Decidable (Leaves x l) :=
  inferInstanceAs (Decidable (_ ∧ _))

/-- The threads that the init leaves behind are scheduled, each after those ahead of it alone, and
`supervise` returns after them, unless the kernel refuses a request. -/
structure Served (pid : Pid) (seed : U64) (x : World × Bool) : Prop where
  waits : Ended pid x → x.1.machine.result = none → x.1.machine.sv.runnable ≠ [] →
    ∃ q, x.1.tracees.phase q = some .released
  scheduled : Ended pid x → x.1.machine.result = none → x.1.machine.sv.runnable ≠ [] →
    ∃ q, x.1.machine.sv.current = some q ∧ q ≠ pid
  inOrder : Ended pid x → x.1.machine.result = none →
    ∀ ahead p behind, x.1.machine.sv.runnable = ahead ++ p :: behind → ∀ labels z,
      ((system pid seed).observed picks []).Run (fun z l => z.1.Unheld l ∧ l.death ≠ some p)
        (x.1, []) labels z → z.1.machine.result = none → Fair ahead p z.2
  returns : Ended pid x → ∀ r w result, Leaves x (.report r) → x.1.observe r = some w →
    w.machine.result = some result → (∀ q, w.tracees.group q ≠ some pid) ∨
      ∃ e, result = .error e ∧ e ≠ .deadlock

/-- Nobody is runnable when the init comes to its exit stop, and nobody becomes runnable after
that. -/
def Idle (pid : Pid) (x : World × Bool) : Label → Prop
  | .report r => x.2 = true → (r.dying = some pid → x.1.machine.sv.runnable = []) ∧
      (x.1.tracees.Dying pid → x.1.machine.sv.Readies r = false)
  | _ => True

instance (pid : Pid) (x : World × Bool) : (l : Label) → Decidable (Idle pid x l)
  | .spawn _ _ _ _ | .exec _ => .isTrue trivial
  | .report _ => inferInstanceAs (Decidable (_ → _ ∧ _))

def LeavesIdle (pid : Pid) (x : World × Bool) (l : Label) : Prop := Leaves x l ∧ Idle pid x l

instance (pid : Pid) (x : World × Bool) (l : Label) : Decidable (LeavesIdle pid x l) :=
  inferInstanceAs (Decidable (_ ∧ _))

def readies (w : World) : Label → Bool
  | .report r => w.machine.sv.Readies r
  | _ => false

/-- Between `x` and `y` no thread but the init has been let run: those that were ready and live
stand in line as they did, and those that became ready stand behind them. -/
structure LeftBehind (pid : Pid) (x : World × Bool) (labels : List Label) (y : World × Bool) :
    Prop where
  current : y.1.machine.sv.current = some pid
  still : ∀ q, q ≠ pid → y.1.machine.sv.isScheduled q = true →
    y.1.tracees.phase q ≠ some .released
  line : ∃ joined, y.1.machine.sv.runnable =
    (x.1.machine.sv.runnable.filter fun q => q ∉ labels.filterMap Label.death) ++ joined
  hangs : ∀ r w, y.1.observe r = some w → w.machine.result ≠ some (.error .deadlock)

/-! ## Along a run -/

section

variable (h : (exitSystem pid seed).Reach Leaves x)

include h

theorem leaves_reach : (system pid seed).Reach Unheld x.1 := h.unobserved fun _ _ => And.right

theorem leaves_placed (hOpen : x.1.machine.result = none) :
    Placed { x.1.machine.sv with effects := [] } x.1.machine.awaits x.1.tracees :=
  (placed (leaves_reach h) hOpen).congr rfl rfl rfl rfl rfl rfl rfl

theorem leaves_pid : x.1.machine.sv.pid = pid := pid_eq (leaves_reach h)

theorem called_current (hOpen : x.1.machine.result = none) (hCalled : x.2 = true) :
    x.1.machine.sv.current = some pid := by
  refine System.Reach.invariant (I := fun x => x.1.machine.result = none → x.2 = true →
    x.1.machine.sv.current = some pid) ?_ ?_ h hOpen hCalled
  · rintro ⟨_, _⟩ ⟨_, rfl⟩ _ hCalled
    cases hCalled
  · intro x l y hReach hCurrent hOk hStep hOpen hCalled
    obtain ⟨hNext, hNote⟩ := System.observed_step hStep
    rw [hNote] at hCalled
    cases l with
    | spawn p c thread vm =>
      rw [spawn_machine hNext] at hOpen ⊢
      exact hCurrent hOpen hCalled
    | exec p =>
      rw [exec_machine hNext] at hOpen ⊢
      exact hCurrent hOpen hCalled
    | report r =>
      obtain ⟨hRunning, hAllows, hMachine, _⟩ := observe_eq_some hNext
      have hPlaced := leaves_placed hReach hRunning
      have hPid := leaves_pid hReach
      rw [hMachine] at hOpen ⊢
      obtain ⟨status, hStatus, hPass⟩ := Machine.step_pass hRunning hOpen
      by_cases hCall : status = .ptraceSyscall pid
      · subst hCall
        simp only [ExitCall.note, hStatus, if_pos] at hCalled
        split at hCalled
        · rename_i p regs hEntry
          obtain rfl : p = pid := by
            have hSame := hStatus.symm.trans (Report.entry_eq_some.mp hEntry).1
            cases hSame
            rfl
          have hScheduled : ({ x.1.machine.sv with effects := [] } : Supervisor).isScheduled p =
              true := init_scheduled (leaves_reach hReach) hRunning
          have hRan := (hPlaced.ran (Tracees.allows_syscall hStatus hAllows)).2 hScheduled
          exact pass_exit_current hEntry (by simpa using hCalled) hScheduled hRan hPass
        · cases hCalled
      · have hSame : ExitCall.note pid x.2 x.1 (.report r) = x.2 := by
          simp only [ExitCall.note]
          split
          · rename_i p hSyscall
            refine if_neg ?_
            rintro rfl
            exact hCall (Except.ok.inj (hStatus.symm.trans hSyscall))
          · rfl
        rw [hSame] at hCalled
        have hBefore := hCurrent hRunning hCalled
        have hNow : ({ x.1.machine.sv with effects := [] } : Supervisor).current =
            some ({ x.1.machine.sv with effects := [] } : Supervisor).pid := by
          change x.1.machine.sv.current = some x.1.machine.sv.pid
          rw [hBefore, hPid]
        have hKept := hPlaced.current_passed hNow hStatus hAllows (by rwa [hPid]) (pass_ok hPass)
        exact hKept.trans hBefore

theorem ended_abandoned (hOpen : x.1.machine.result = none) (hEnded : Ended pid x) :
    Abandoned { x.1.machine.sv with effects := [] } x.1.machine.awaits x.1.tracees where
  placed := leaves_placed h hOpen
  current := (called_current h hOpen hEnded.1).trans (congrArg some (leaves_pid h).symm)
  dying := by
    change x.1.tracees.Dying x.1.machine.sv.pid
    rw [leaves_pid h]
    exact hEnded.2

end

theorem ended_note {r : Report} (hDying : x.1.tracees.Dying pid)
    (hAllows : x.1.tracees.allows r = true) : ExitCall.note pid x.2 x.1 (.report r) = x.2 := by
  simp only [ExitCall.note]
  split
  · rename_i p hSyscall
    refine if_neg ?_
    rintro rfl
    exact (Tracees.allows_dying_task hDying hAllows).1 hSyscall
  · rfl

/-- A step that leads to a world in which the init has ended: it had ended before, or comes to its
exit stop. -/
inductive EndStep (pid : Pid) (x : World × Bool) (l : Label) (y : World × Bool) : Prop
  | still (hEnded : Ended pid x)
      (hQueue : x.1.machine.sv.Joins y.1.machine.sv l.death (x.1.readies l)) : EndStep pid x l y
  | ends {r : Report} (hReport : l = .report r) (hDying : r.dying = some pid) (hCalled : x.2 = true)
      (hQueue : y.1.machine.sv.runnable = x.1.machine.sv.runnable) : EndStep pid x l y

theorem ended_step (h : (exitSystem pid seed).Reach Leaves x)
    (hStep : (exitSystem pid seed).step x l = some y) (hOpen : y.1.machine.result = none)
    (hEnded : Ended pid y) : EndStep pid x l y := by
  obtain ⟨hNext, hNote⟩ := System.observed_step hStep
  rw [Ended, hNote] at hEnded
  obtain ⟨hCalled, hDying⟩ := hEnded
  cases l with
  | spawn p c thread vm =>
    refine .still ⟨hCalled, ?_⟩ ?_
    · have hPhase := spawn_phase hNext pid
      split at hPhase
      · simp [Tracees.Dying, hPhase] at hDying
      · exact (Tracees.dying_congr hPhase).mp hDying
    · exact .same (by rw [spawn_machine hNext]) rfl
  | exec p =>
    refine .still ⟨hCalled, (Tracees.dying_congr (exec_phase hNext pid)).mp hDying⟩ ?_
    exact .same (by rw [exec_machine hNext]) rfl
  | report r =>
    obtain ⟨status, hRunning, hAllows, hStatus, hTracees, hPassed⟩ := observe_wait hNext hOpen
    rw [hTracees, Tracees.dying_after] at hDying
    rcases Tracees.dying_of_observe hDying with hBefore | ⟨sig, hExit⟩
    · have hSame : ExitCall.note pid x.2 x.1 (.report r) = x.2 := ended_note hBefore hAllows
      rw [hSame] at hCalled
      have hQueue := ((ended_abandoned h hRunning ⟨hCalled, hBefore⟩).passed hStatus hAllows
        hPassed).2
      refine .still ⟨hCalled, hBefore⟩ ?_
      have hGone : r.death = status.death := by rw [Report.death, hStatus]
      change x.1.machine.sv.Joins y.1.machine.sv r.death (x.1.machine.sv.Readies r)
      rw [hGone]
      exact hQueue
    · have hSame : ExitCall.note pid x.2 x.1 (.report r) = x.2 := by
        simp only [ExitCall.note, hExit]
      rw [hSame] at hCalled
      refine .ends rfl (by simp only [Report.dying, hExit]) hCalled ?_
      cases hStatus.symm.trans hExit
      have hNow : ({ x.1.machine.sv with effects := [] } : Supervisor).current = some pid :=
        called_current h hRunning hCalled
      exact Passed.exit_runnable (s := { x.1.machine.sv with effects := [] }) hNow hPassed

theorem ended_next (hEnded : Ended pid x) (hReach : (exitSystem pid seed).Reach Leaves x)
    (hStep : (exitSystem pid seed).step x l = some y) (hOpen : y.1.machine.result = none) :
    Ended pid y := by
  obtain ⟨hNext, hNote⟩ := System.observed_step hStep
  rw [Ended, hNote]
  cases l with
  | spawn p c thread vm =>
    obtain ⟨_, _, hChild, _⟩ := spawn_eq_some hNext
    refine ⟨hEnded.1, ?_⟩
    have hPhase := spawn_phase hNext pid
    rw [if_neg] at hPhase
    · exact (Tracees.dying_congr hPhase).mpr hEnded.2
    · rintro rfl
      rcases hEnded.2 with hNow | hNow <;> simp [Tracees.phase, hChild] at hNow
  | exec p => exact ⟨hEnded.1, (Tracees.dying_congr (exec_phase hNext pid)).mpr hEnded.2⟩
  | report r =>
    obtain ⟨status, hRunning, hAllows, hStatus, hTracees, hPassed⟩ := observe_wait hNext hOpen
    refine ⟨(ended_note hEnded.2 hAllows).trans hEnded.1, ?_⟩
    rw [hTracees, Tracees.dying_after]
    refine Tracees.dying_observe hEnded.2 hStatus hAllows fun hDeath => ?_
    exact hPassed.death_ne hDeath (leaves_pid hReach).symm

theorem not_hangs (h : (exitSystem pid seed).Reach Leaves x) (hEnded : Ended pid x) {r : Report}
    {w : World} (hStep : x.1.observe r = some w) :
    w.machine.result ≠ some (.error .deadlock) := by
  intro hFails
  obtain ⟨hRunning, hAllows, hMachine, _⟩ := observe_eq_some hStep
  rw [hMachine] at hFails
  obtain ⟨status, hStatus, hPass⟩ := Machine.step_deadlock hRunning hFails
  have hStart := ended_abandoned h hRunning hEnded
  exact hStart.placed.not_deadlock hStart.current hStatus hAllows (hStart.not_call hStatus hAllows) _
    hPass

/-- Once the init has ended, the others are served exactly as long as nobody is ready. -/
theorem served_iff_idle (h : (exitSystem pid seed).Reach Leaves x)
    (hOpen : x.1.machine.result = none) (hEnded : Ended pid x) :
    Served pid seed x ↔ x.1.machine.sv.runnable = [] := by
  constructor
  · intro hServed
    by_contra hReady
    obtain ⟨q, hq, hne⟩ := hServed.scheduled hEnded hOpen hReady
    rw [called_current h hOpen hEnded.1] at hq
    exact hne (Option.some.inj hq).symm
  · intro hNobody
    refine ⟨fun _ _ hReady => absurd hNobody hReady, fun _ _ hReady => absurd hNobody hReady,
      fun _ _ ahead p behind hLine labels z hRun hStill =>
        turns_fair (leaves_reach h) hOpen hLine hRun hStill,
      fun _ r w result hOk hStep hResult => ?_⟩
    cases result with
    | ok code => exact .inl (leaves_pid h ▸ hOk.1.returns hStep hResult)
    | error e =>
      refine .inr ⟨e, rfl, ?_⟩
      rintro rfl
      exact not_hangs h hEnded hStep hResult

theorem EndStep.line (h : EndStep pid x l y) : ∃ joined, y.1.machine.sv.runnable =
    (x.1.machine.sv.runnable.filter fun q => l.death ≠ some q) ++ joined := by
  cases h with
  | still _ hQueue =>
    obtain ⟨joined, hJoined, _⟩ := hQueue
    exact ⟨joined, hJoined⟩
  | @ends r hReport hDying _ hQueue =>
    have hAlive : r.death = none := by
      simp only [Report.dying] at hDying
      split at hDying
      · rename_i hStatus
        simp only [Report.death, hStatus, WaitStatus.death]
      · cases hDying
    refine ⟨[], ?_⟩
    rw [hReport, hQueue]
    simp [Label.death, hAlive]

/-- Nobody is served: along a run the queue loses its dead and is joined at its back. -/
theorem line_run {labels : List Label} (h : (exitSystem pid seed).Reach Leaves x)
    (hEnded : Ended pid x) (hRun : (exitSystem pid seed).Run Leaves x labels y)
    (hOpen : y.1.machine.result = none) : Ended pid y ∧ ∃ joined, y.1.machine.sv.runnable =
      (x.1.machine.sv.runnable.filter fun q => q ∉ labels.filterMap Label.death) ++ joined := by
  induction hRun with
  | nil x => exact ⟨hEnded, [], by simp⟩
  | @cons x z y l labels hOk hStep hRest ih =>
    have hRunning := running_of_run hRest hOpen
    have hStill := ended_next hEnded h hStep hRunning
    obtain ⟨first, hFirst⟩ := (ended_step h hStep hRunning hStill).line
    obtain ⟨hLast, later, hLater⟩ := ih (h.step l hOk hStep) hStill hOpen
    refine ⟨hLast, (first.filter fun q => q ∉ labels.filterMap Label.death) ++ later, ?_⟩
    have hDeaths (q : Pid) : q ∉ (l :: labels).filterMap Label.death ↔
        q ∉ labels.filterMap Label.death ∧ l.death ≠ some q := by
      cases hDeath : l.death with
      | none => simp [hDeath]
      | some p => simp [hDeath, and_comm, eq_comm]
    rw [hLater, hFirst, List.filter_append, List.filter_filter, List.append_assoc]
    simp only [hDeaths, Bool.decide_and]

theorem left_behind {labels : List Label} (h : (exitSystem pid seed).Reach Leaves x)
    (hEnded : Ended pid x) (hRun : (exitSystem pid seed).Run Leaves x labels y)
    (hOpen : y.1.machine.result = none) : LeftBehind pid x labels y := by
  obtain ⟨hLast, hLine⟩ := line_run h hEnded hRun hOpen
  have hReach := h.run hRun
  have hCurrent := called_current hReach hOpen hLast.1
  refine ⟨hCurrent, fun q hne hScheduled hRan => ?_, hLine, fun r w hStep => not_hangs hReach hLast hStep⟩
  have hSame := (placed (leaves_reach hReach) hOpen).single q hScheduled hRan
  rw [hCurrent] at hSame
  exact hne (Option.some.inj hSame).symm

theorem idle_of_reach (h : (exitSystem pid seed).Reach (LeavesIdle pid) x)
    (hOpen : x.1.machine.result = none) (hEnded : Ended pid x) :
    x.1.machine.sv.runnable = [] := by
  refine System.Reach.invariant (I := fun x => x.1.machine.result = none → Ended pid x →
    x.1.machine.sv.runnable = []) ?_ ?_ h hOpen hEnded
  · rintro ⟨_, _⟩ ⟨_, rfl⟩ _ ⟨hCalled, _⟩
    cases hCalled
  · intro x l y hReach hIdle hOk hStep hOpen hEnded
    have hRunning := running_of_step (System.observed_step hStep).1 hOpen
    cases ended_step (hReach.mono fun _ _ => And.left) hStep hOpen hEnded with
    | still hBefore hQueue =>
      obtain ⟨joined, hJoined, hReadies⟩ := hQueue
      have hNot : x.1.readies l = false := by
        cases l with
        | report r => exact (hOk.2 hBefore.1).2 hBefore.2
        | spawn => rfl
        | exec => rfl
      have hNone : joined = [] := by
        by_contra hSome
        rw [hReadies.mp hSome] at hNot
        cases hNot
      rw [hJoined, hIdle hRunning hBefore, hNone]
      rfl
    | @ends r hReport hDying hCalled hQueue =>
      subst hReport
      rw [hQueue]
      exact (hOk.2 hCalled).1 hDying

theorem ends_ready {r : Report} {sig : Signal} (h : (exitSystem pid seed).Reach Leaves x)
    (hExit : r.status = .ok (.ptraceEvent pid sig .exit)) (hCalled : x.2 = true)
    (hReady : x.1.machine.sv.runnable ≠ []) (hStep : (exitSystem pid seed).step x (.report r) = some y)
    (hOpen : y.1.machine.result = none) : Ended pid y ∧ y.1.machine.sv.runnable ≠ [] := by
  obtain ⟨hNext, hNote⟩ := System.observed_step hStep
  obtain ⟨status, hRunning, hAllows, hStatus, hTracees, hPassed⟩ := observe_wait hNext hOpen
  have hPhase : (x.1.tracees.observe r).phase pid = some .exitStop := by
    rw [Tracees.phase_observe_dying hExit, Tracees.phase_setPhase, if_pos rfl]
    rcases Tracees.allows_dying hExit hAllows with hNow | hNow | hNow <;> rw [hNow] <;> rfl
  have hSame : ExitCall.note pid x.2 x.1 (.report r) = x.2 := by
    simp only [ExitCall.note, hExit]
  refine ⟨⟨?_, ?_⟩, ?_⟩
  · rw [hNote, hSame, hCalled]
  · rw [hTracees, Tracees.dying_after]
    exact .inl hPhase
  · cases hStatus.symm.trans hExit
    have hNow : ({ x.1.machine.sv with effects := [] } : Supervisor).current = some pid :=
      called_current h hRunning hCalled
    rw [Passed.exit_runnable (s := { x.1.machine.sv with effects := [] }) hNow hPassed]
    exact hReady

/-- A step that breaks the condition leaves somebody ready. -/
theorem ready_of_not_idle (h : (exitSystem pid seed).Reach Leaves x) (hBreaks : ¬ Idle pid x l)
    (hStep : (exitSystem pid seed).step x l = some y) (hOpen : y.1.machine.result = none) :
    Ended pid y ∧ y.1.machine.sv.runnable ≠ [] := by
  cases l with
  | spawn => exact absurd trivial hBreaks
  | exec => exact absurd trivial hBreaks
  | report r =>
    rw [Idle, Classical.not_imp, not_and_or, Classical.not_imp, Classical.not_imp] at hBreaks
    obtain ⟨hCalled, hBreaks⟩ := hBreaks
    rcases hBreaks with ⟨hDying, hReady⟩ | ⟨hDying, hReadies⟩
    · obtain ⟨sig, hExit⟩ : ∃ sig, r.status = .ok (.ptraceEvent pid sig .exit) := by
        simp only [Report.dying] at hDying
        split at hDying
        · rename_i p sig hStatus
          cases hDying
          exact ⟨sig, hStatus⟩
        · cases hDying
      exact ends_ready h hExit hCalled hReady hStep hOpen
    · have hRunning := (observe_eq_some (System.observed_step hStep).1).1
      refine ⟨ended_next ⟨hCalled, hDying⟩ h hStep hOpen, ?_⟩
      obtain ⟨status, _, hAllows, hStatus, _, hPassed⟩ :=
        observe_wait (System.observed_step hStep).1 hOpen
      obtain ⟨joined, hJoined, hSome⟩ := ((ended_abandoned h hRunning ⟨hCalled, hDying⟩).passed
        hStatus hAllows hPassed).2
      have hYes : x.1.machine.sv.Readies r = true := by simpa using hReadies
      rw [hJoined]
      intro hNone
      exact hSome.mpr hYes (List.append_eq_nil_iff.mp hNone).2

/-- For runs in which leaders die last and no pid that is held is given away. As long as nobody is
ready, the threads that the init leaves behind miss nothing, and the first report that breaks this
leaves them unserved. In general, once the init has ended: those that are ready are not served, and
never will be. -/
theorem leavers_served (pid : Pid) (seed : U64) (x : World × Bool) :
    ((exitSystem pid seed).Reach (LeavesIdle pid) x → Served pid seed x ∧
      ∀ l y, Leaves x l → ¬ Idle pid x l → (exitSystem pid seed).step x l = some y →
        y.1.machine.result = none → ¬ Served pid seed y) ∧
    ((exitSystem pid seed).Reach Leaves x → x.1.machine.result = none → Ended pid x →
      (Served pid seed x ↔ x.1.machine.sv.runnable = []) ∧
      ∀ labels y, (exitSystem pid seed).Run Leaves x labels y → y.1.machine.result = none →
        LeftBehind pid x labels y) := by
  refine ⟨fun h => ⟨?_, fun l y hOk hBreaks hStep hOpen hServed => ?_⟩,
    fun h hOpen hEnded => ⟨served_iff_idle h hOpen hEnded, fun labels y hRun hStill =>
      left_behind h hEnded hRun hStill⟩⟩
  · by_cases hBoth : x.1.machine.result = none ∧ Ended pid x
    · have hNobody := idle_of_reach h hBoth.1 hBoth.2
      exact (served_iff_idle (h.mono fun _ _ => And.left) hBoth.1 hBoth.2).mpr hNobody
    · refine ⟨fun hEnded hOpen => absurd ⟨hOpen, hEnded⟩ hBoth,
        fun hEnded hOpen => absurd ⟨hOpen, hEnded⟩ hBoth,
        fun hEnded hOpen => absurd ⟨hOpen, hEnded⟩ hBoth, fun hEnded r w result _ hStep => ?_⟩
      exact absurd ⟨(observe_eq_some hStep).1, hEnded⟩ hBoth
  · have hReach : (exitSystem pid seed).Reach Leaves x := h.mono fun _ _ => And.left
    obtain ⟨hEnded, hReady⟩ := ready_of_not_idle hReach hBreaks hStep hOpen
    exact hReady ((served_iff_idle (hReach.step l hOk hStep) hOpen hEnded).mp hServed)

def initExits : List Label :=
  [.report (.enters 1 { origRax := 60 }), .report (.plain (.ptraceEvent 1 .SIGTRAP .exit))]

/-- Thread 2 waits on a futex when the init ends; or it is ready, and stays so while process 3 makes
a call. -/
theorem leavers_served_waiting :
    (∃ x, (exitSystem 1 0).exec (LeavesIdle 1) (start 1 0 {}, false)
        (newThread ++ threadWaits ++ initExits) = some x ∧
      (x.1.machine.result.isNone, x.2, x.1.machine.sv.blocked) = (true, true, {2}) ∧
      Served 1 0 x) ∧
    ∃ x y, (exitSystem 1 0).exec Leaves (start 1 0 {}, false)
        (initForks ++ newThread ++ initExits) = some x ∧
      (exitSystem 1 0).exec Leaves x [.report (.enters 3 { origRax := 39 })] = some y ∧
      y.1.machine.sv.runnable = [2] ∧
      LeftBehind 1 x [.report (.enters 3 { origRax := 39 })] y := by
  constructor
  · have hRun : ((exitSystem 1 0).exec (LeavesIdle 1) (start 1 0 {}, false)
        (newThread ++ threadWaits ++ initExits)).map (fun x =>
        (x.1.machine.result.isNone, x.2, x.1.machine.sv.blocked)) = some (true, true, {2}) := by
      decide +kernel
    obtain ⟨x, hExec, hx⟩ := Option.map_eq_some_iff.mp hRun
    have hReach : (exitSystem 1 0).Reach (LeavesIdle 1) x :=
      System.reach_of_exec ⟨⟨{}, rfl⟩, rfl⟩ hExec
    exact ⟨x, hExec, hx, ((leavers_served 1 0 x).1 hReach).1⟩
  · have hRun : ((exitSystem 1 0).exec Leaves (start 1 0 {}, false)
        (initForks ++ newThread ++ initExits)).bind (fun x =>
          ((exitSystem 1 0).exec Leaves x [.report (.enters 3 { origRax := 39 })]).map fun y =>
            (x.1.machine.result.isNone, x.2, decide (x.1.tracees.Dying 1),
              y.1.machine.result.isNone, y.1.machine.sv.runnable)) =
        some (true, true, true, true, [2]) := by decide +kernel
    obtain ⟨x, hExec, hx⟩ := Option.bind_eq_some_iff.mp hRun
    obtain ⟨y, hNext, hy⟩ := Option.map_eq_some_iff.mp hx
    simp only [Prod.mk.injEq, Option.isNone_iff_eq_none, decide_eq_true_eq] at hy
    obtain ⟨hOpen, hCalled, hDying, hStill, hRunnable⟩ := hy
    have hReach : (exitSystem 1 0).Reach Leaves x := System.reach_of_exec ⟨⟨{}, rfl⟩, rfl⟩ hExec
    exact ⟨x, y, hExec, hNext, hRunnable,
      ((leavers_served 1 0 x).2 hReach hOpen ⟨hCalled, hDying⟩).2 _ y (System.run_of_exec hNext)
        hStill⟩

/-- Thread 2 is runnable when the init ends. -/
theorem not_leavers_served : ¬ ∀ (pid : Pid) (seed : U64) (x : World × Bool),
    (exitSystem pid seed).Reach (fun x l => x.1.LeaderLast l) x → Served pid seed x := by
  intro hAll
  have hRun : ((exitSystem 1 0).exec (fun x l => x.1.LeaderLast l) (start 1 0 {}, false)
      (newThread ++ initExits)).map (fun x =>
      ((x.1.machine.result.isNone, x.2, decide (x.1.tracees.Dying 1)),
        x.1.machine.sv.runnable, x.1.machine.sv.current)) =
      some ((true, true, true), [2], some 1) := by decide +kernel
  obtain ⟨x, hExec, hx⟩ := Option.map_eq_some_iff.mp hRun
  simp only [Prod.mk.injEq, Option.isNone_iff_eq_none, decide_eq_true_eq] at hx
  obtain ⟨⟨hOpen, hCalled, hDying⟩, hRunnable, hCurrent⟩ := hx
  have hServed := hAll 1 0 x (System.reach_of_exec ⟨⟨{}, rfl⟩, rfl⟩ hExec)
  obtain ⟨q, hq, hne⟩ := hServed.scheduled ⟨hCalled, hDying⟩ hOpen (by simp [hRunnable])
  rw [hCurrent] at hq
  exact hne (Option.some.inj hq).symm

end World

end Dtrun
