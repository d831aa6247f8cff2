import Dtrun.Supervisor.Dying
import Dtrun.Supervisor.GroupExit
import Dtrun.Supervisor.Resumes

/-! # Reports that make no thread runnable

Threads become runnable at an attach stop, at a clone event, at a system call stop and at the death
of a task whose word others wait for; all other reports leave the queue to those that are in it.
-/
namespace Dtrun
set_option autoImplicit false
open FiniteMap StateExcept Transition Supervisor

variable {k : Answers} {s v : Supervisor} {p : Pid} {r : Report} {status : WaitStatus}

def Report.dying (r : Report) : Option Pid :=
  match r.status with
  | .ok (.ptraceEvent p _ .exit) => some p
  | _ => none

namespace Supervisor

/-- The report makes no thread runnable. -/
def Idles (s : Supervisor) (r : Report) : Bool :=
  match r.status with
  | .ok (.ptraceSyscall p) => ¬ s.isScheduled p
  | .ok (.ptraceEvent p _ event) => event.creates →
      ((s.clonePending.get p).getD {}).flags &&& CLONE_THREAD = 0
  | .ok (.stopped p sig) => sig = .SIGSTOP → ¬ s.isScheduled p
  | .ok (.exited p _) | .ok (.signaled p _ _) => s.clearsNobody p
  | .ok (.continued _) | .ok .stillAlive | .error _ => true

end Supervisor

theorem resumeTask_runnable {u : Unit} (h : resumeTask k p s = .ok u v) :
    v.runnable = s.runnable := by
  rcases resumeTask_ok h with ⟨_, rfl, _⟩ | ⟨_, _, rfl⟩
  · rfl
  · rfl

theorem release_runnable {u : Unit} (h : release k p s = .ok u v)
    (hNot : s.isScheduled p = false) : v.runnable = s.runnable := by
  rcases release_ok h with ⟨hYes, _⟩ | ⟨_, _, rfl⟩
  · rw [hNot] at hYes
    cases hYes
  · rfl

theorem StopHandled.runnable {sig : Signal} (h : StopHandled k p sig s v)
    (hNot : sig = .SIGSTOP → s.isScheduled p = false) : v.runnable = s.runnable := by
  cases h with
  | current => rfl
  | attached _ hSig _ hRelease =>
    have hv := release_runnable hRelease (hNot hSig)
    exact hv
  | early => rfl
  | again => rfl
  | signal => rfl
  | noted _ _ _ hQuiet => exact hQuiet.runnable

theorem Registered.runnable {info : CloneInfo} (h : Registered k p info s v)
    (hFlag : info.flags &&& CLONE_THREAD = 0) : v.runnable = s.runnable := by
  cases h with
  | again => rfl
  | released hFresh hStopped hRelease hQuiet =>
    have hv := release_runnable hRelease (by simp [isScheduled, Map.get_insert_self, hFlag])
    exact hQuiet.runnable.trans hv
  | expected _ _ hQuiet => exact hQuiet.runnable

theorem Picks.of_nil (h : Picks k s v) (hNil : s.runnable = []) : v = s := by
  cases h with
  | idle => rw [← hNil]
  | run hQueue =>
    rw [hNil] at hQueue
    exact absurd hQueue.symm (by simp)

theorem Supervisor.Idles.clearsNobody (h : s.Idles r = true) (hStatus : r.status = .ok status)
    (hDeath : status.death = some p) : s.clearsNobody p = true := by
  cases status with
  | exited q code =>
    cases hDeath
    simpa [Idles, hStatus] using h
  | signaled q sig core =>
    cases hDeath
    simpa [Idles, hStatus] using h
  | _ => cases hDeath

/-- Once the dead are taken out of it the queue stays empty. -/
theorem Dispatched.runnable_nil {flow : Flow} (h : Dispatched r.answers s status flow v)
    (hQueued : s.Queued) (hStatus : r.status = .ok status) (hIdles : s.Idles r = true)
    (hDead : ∀ q ∈ s.runnable, status.death = some q) (hFlow : ∀ code, flow ≠ .exit code) :
    v.runnable = [] := by
  have same (hNone : status.death = none) (hSame : v.runnable = s.runnable) :
      v.runnable = [] := by
    rw [hSame, List.eq_nil_iff_forall_not_mem]
    intro q hq
    have hDied := hDead q hq
    rw [hNone] at hDied
    cases hDied
  cases h with
  | @syscall q v hHandled =>
    have hNot : s.isScheduled q = false := by simpa [Idles, hStatus] using hIdles
    cases hHandled with
    | concurrent _ hQuiet _ => exact same rfl hQuiet.runnable
    | wait hYes => rw [hNot] at hYes; cases hYes
    | entry hYes => rw [hNot] at hYes; cases hYes
    | stay hYes => rw [hNot] at hYes; cases hYes
    | yield hYes => rw [hNot] at hYes; cases hYes
    | pick hYes => rw [hNot] at hYes; cases hYes
  | @clone q child sig event v t flow hEvent hChild hRegister hDone =>
    have hFlag : ((s.clonePending.get q).getD {}).flags &&& CLONE_THREAD = 0 := by
      simpa [Idles, hStatus, hEvent] using hIdles
    have hv := hRegister.runnable hFlag
    rcases hDone with ⟨_, _, rfl⟩ | ⟨_, _, hResume⟩
    · exact same rfl hv
    · exact same rfl ((resumeTask_runnable hResume).trans hv)
  | dying => exact same rfl rfl
  | event _ _ hResume => exact same rfl (resumeTask_runnable hResume)
  | stopped hStop =>
    refine same rfl (hStop.runnable fun hSig => ?_)
    simpa [Idles, hStatus, hSig] using hIdles
  | finished => exact absurd rfl (hFlow _)
  | @died status q v hDeath hOther hExit =>
    have hLeft (record : Bool) : (s.onThreadExit q record).runnable = [] := by
      rw [onThreadExit_runnable hQueued (Idles.clearsNobody hIdles hStatus hDeath),
        List.filter_eq_nil_iff]
      intro p hp
      cases hDeath.symm.trans (hDead p hp)
      simp
    rcases dispatchExit_ok hExit with ⟨_, _, hPicks⟩ | ⟨_, rfl⟩
    · rw [hPicks.of_nil (hLeft true)]
      exact hLeft true
    · exact hLeft _
  | idle hIdle =>
    refine same ?_ rfl
    rcases hIdle with ⟨q, rfl⟩ | rfl
    · rfl
    · rfl

namespace World

def newThread : List Label :=
  [.report (.enters 1 { origRax := 56, rdi := threadFlags }), .spawn 1 2 true true,
   .report (.created 1 .clone 2), .report (.plain (.stopped 2 .SIGSTOP))]

def initForks : List Label :=
  [.spawn 1 3 false false, .report (.created 1 .fork 3), .report (.plain (.stopped 3 .SIGSTOP))]

def threadWaits : List Label :=
  [.report (.leaves 1), .report ⟨.ok (.ptraceSyscall 2), {
    syscallInfo := fun _ => .ok .entry
    getregs := fun _ => .ok { origRax := 202, rdi := 4096 }
    readMem := fun _ _ n => .ok (List.replicate n 0) }⟩]

end World

end Dtrun
