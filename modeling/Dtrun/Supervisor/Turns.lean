import Dtrun.Supervisor.Wakes

/-! # The run queue as a waiting line

Threads join `runnable` at its back, wherever they come from, and `schedule_next` serves it at its
head, since a thread that has its place in the queue is neither parked nor gone. A ready thread
therefore waits for those ahead of it and for nobody else.
-/
namespace Dtrun
set_option autoImplicit false
open FiniteMap StateExcept Transition Supervisor Fifo

variable {k : Answers} {p q : Pid} {s t v : Supervisor} {u : Unit} {status : WaitStatus}
  {awaits awaits' : List Await}

/-- The task whose system call has ended. -/
def Report.leaver (r : Report) : Option Pid :=
  match r.status with
  | .ok (.ptraceSyscall p) => match r.answers.syscallInfo p with
    | .ok .exit => some p
    | _ => none
  | _ => none

/-- The thread that a pass has made current: one that was not current before, or one that was and
that had given up its turn at the end of its system call. -/
def chosen (leaver before after : Option Pid) : Option Pid :=
  match after with
  | some q => if before = some q ∧ leaver ≠ some q then none else some q
  | none => none

/-- Threads have joined at the back, and nobody's turn has ended. -/
structure Grows (s t : Supervisor) : Prop where
  runnable : ∃ joined, t.runnable = s.runnable ++ joined
  current : t.current = s.current

namespace Grows

theorem same (hRunnable : t.runnable = s.runnable) (hCurrent : t.current = s.current) :
    Grows s t :=
  ⟨⟨[], by rw [hRunnable, List.append_nil]⟩, hCurrent⟩

theorem quiet (h : Quiet s t) : Grows s t := .same h.runnable h.current

theorem trans (h : Grows s t) (h' : Grows t v) : Grows s v := by
  obtain ⟨joined, hJoined⟩ := h.runnable
  obtain ⟨joined', hJoined'⟩ := h'.runnable
  refine ⟨⟨joined ++ joined', ?_⟩, h'.current.trans h.current⟩
  rw [hJoined', hJoined, List.append_assoc]

end Grows

theorem release_grows (h : release k p s = .ok u t) : Grows s t := by
  rcases release_ok h with ⟨_, rfl⟩ | ⟨_, _, rfl⟩
  · exact ⟨⟨[p], rfl⟩, rfl⟩
  · exact .same rfl rfl

theorem resumeTask_grows (h : resumeTask k p s = .ok u t) : Grows s t := by
  rcases resumeTask_ok h with ⟨_, rfl, _⟩ | ⟨_, _, rfl⟩
  · exact .same rfl rfl
  · exact .same rfl rfl

theorem Registered.grows {info : CloneInfo} (h : Registered k p info s t) : Grows s t := by
  cases h with
  | again => exact .same rfl rfl
  | released _ _ hRelease hQuiet =>
    obtain ⟨hRunnable, hCurrent⟩ := release_grows hRelease
    exact Grows.trans ⟨hRunnable, hCurrent⟩ (.quiet hQuiet)
  | expected _ _ hQuiet => exact .same hQuiet.runnable hQuiet.current

theorem StopHandled.grows {sig : Signal} (h : StopHandled k p sig s t) : Grows s t := by
  cases h with
  | current => exact .same rfl rfl
  | attached _ _ _ hRelease =>
    obtain ⟨hRunnable, hCurrent⟩ := release_grows hRelease
    exact ⟨hRunnable, hCurrent⟩
  | early => exact .same rfl rfl
  | again => exact .same rfl rfl
  | signal => exact .same rfl rfl
  | noted _ _ _ hQuiet => exact .quiet hQuiet

theorem Entered.grows {b : Bool} (h : Entered k p s b t) (hQueued : s.Queued) : Grows s t := by
  cases h with
  | quiet hQuiet => exact .quiet hQuiet
  | @wake _ regs vals _ _ hQuiet =>
    obtain ⟨m, hMoved⟩ := hQueued.wakes regs.rdi vals
    exact Grows.trans ⟨⟨_, hMoved.runnable⟩, hMoved.current⟩ (.quiet hQuiet)
  | wait _ _ hQuiet => exact .same hQuiet.runnable hQuiet.current

/-- System calls and deaths aside, a status can only add to the queue. -/
theorem Dispatched.grows {flow : Flow} (h : Dispatched k s status flow t)
    (hCall : ∀ p, status ≠ .ptraceSyscall p) (hAlive : status.death = none) : Grows s t := by
  cases h with
  | syscall _ => exact absurd rfl (hCall _)
  | clone _ _ hRegister hFlow =>
    obtain ⟨hRunnable, hCurrent⟩ := hRegister.grows
    have hRegistered : Grows s _ := ⟨hRunnable, hCurrent⟩
    rcases hFlow with ⟨_, _, rfl⟩ | ⟨_, _, hResume⟩
    · exact hRegistered
    · exact hRegistered.trans (resumeTask_grows hResume)
  | dying _ => exact .same rfl rfl
  | event _ _ hResume => exact resumeTask_grows hResume
  | stopped hStop => exact hStop.grows
  | finished hDeath _ =>
    rw [hDeath] at hAlive
    cases hAlive
  | died hDeath _ _ =>
    rw [hDeath] at hAlive
    cases hAlive
  | idle _ => exact .same rfl rfl

/-- The dead leave the queue, others join it, and its head is made current or nobody is. -/
inductive Serves (leaver : Option Pid) (gone : List Pid) (s t : Supervisor) : Prop
  | kept (joined : List Pid)
      (hQueue : t.runnable = (s.runnable.filter fun q => q ∉ gone) ++ joined)
      (hStays : ∀ q, t.current = some q → s.current = some q ∧ leaver ≠ some q)
      (hAside : ∀ q, s.current = some q → t.current = none → q ∉ t.runnable)
  | served (joined : List Pid) (tid : Pid)
      (hQueue : (s.runnable.filter fun q => q ∉ gone) ++ joined = tid :: t.runnable)
      (hCurrent : t.current = some tid) (hTurn : s.current = some tid → leaver = some tid)

namespace Serves

variable {leaver : Option Pid} {gone : List Pid}

theorem step (h : Serves leaver gone s t) :
    Step gone (chosen leaver s.current t.current).toList s.runnable t.runnable := by
  cases h with
  | kept joined hQueue hStays _ =>
    have hNobody : chosen leaver s.current t.current = none := by
      cases hCurrent : t.current with
      | none => rfl
      | some q => exact if_pos (hStays q hCurrent)
    rw [hNobody]
    exact ⟨joined, hQueue.symm⟩
  | served joined tid hQueue hCurrent hTurn =>
    have hChosen : chosen leaver s.current t.current = some tid := by
      rw [hCurrent]
      refine if_neg ?_
      rintro ⟨hWas, hNot⟩
      exact hNot (hTurn hWas)
    rw [hChosen]
    exact ⟨joined, hQueue⟩

theorem of_grows (h : Grows s t) (hLeaver : ∀ q, s.current = some q → leaver ≠ some q) :
    Serves leaver [] s t := by
  obtain ⟨joined, hJoined⟩ := h.runnable
  refine .kept joined ?_ (fun q hq => ?_) fun q hq hNone => ?_
  · simpa using hJoined
  · rw [h.current] at hq
    exact ⟨hq, hLeaver q hq⟩
  · rw [h.current, hq] at hNone
    cases hNone

end Serves

namespace Placed

variable {w : Tracees} {r : Report}

theorem picks_head (h : Placed s awaits w) (hPicks : Picks k s t) :
    (s.runnable = [] ∧ t.runnable = [] ∧ t.current = s.current) ∨
      ∃ tid, s.runnable = tid :: t.runnable ∧ t.current = some tid := by
  cases hPicks with
  | idle hSkips _ =>
    have hEmpty : s.runnable = [] :=
      List.eq_nil_iff_forall_not_mem.mpr fun q hq => h.not_skips q hq (hSkips q hq)
    exact .inl ⟨hEmpty, rfl, rfl⟩
  | @run skipped rest tid thread hQueue hSkips _ _ _ =>
    obtain rfl : skipped = [] := List.eq_nil_iff_forall_not_mem.mpr fun q hq =>
      h.not_skips q (hQueue ▸ List.mem_append_left _ hq) (hSkips q hq)
    refine .inr ⟨tid, ?_, ?_⟩
    · rw [scheduled_frame]
      exact hQueue
    · rw [scheduled_frame]
      rfl

theorem serves_runsOn {leaver : Option Pid} {gone : List Pid} (h : Placed v awaits w)
    (hServes : Serves leaver gone s v) (hTail : RunsOn k v t) : Serves leaver gone s t := by
  rcases hTail with ⟨hFree, hPicks⟩ | ⟨_, rfl⟩
  · cases hServes with
    | served _ _ _ hCurrent _ =>
      rw [hFree] at hCurrent
      cases hCurrent
    | kept joined hQueue _ hAside =>
      rcases h.picks_head hPicks with ⟨hEmpty, hNone, hCurrent⟩ | ⟨tid, hHead, hCurrent⟩
      · refine .kept joined ?_ (fun q hq => ?_) fun q _ _ => ?_
        · rw [hNone, ← hEmpty]
          exact hQueue
        · rw [hCurrent, hFree] at hq
          cases hq
        · rw [hNone]
          exact List.not_mem_nil
      · refine .served joined tid (hQueue.symm.trans hHead) hCurrent fun hWas => ?_
        exact absurd (hHead ▸ List.mem_cons_self) (hAside tid hWas hFree)
  · exact hServes

theorem dispatchSyscall_serves (h : Placed s awaits w) (hEffects : s.effects = [])
    (hStatus : r.status = .ok (.ptraceSyscall p)) (hAllows : w.allows r = true)
    (hCall : dispatchSyscall r.answers p s = .ok u t) : Serves r.leaver [] s t := by
  obtain ⟨hKnown, hNow⟩ := h.ran (Tracees.allows_syscall hStatus hAllows)
  by_cases hScheduled : s.isScheduled p = true
  · simp only [dispatchSyscall, bind_ok_iff, ptraceResult_ok, get_apply] at hCall
    obtain ⟨op, _, ⟨hOp, rfl⟩, _, _, ⟨⟩, hCall⟩ := hCall
    rw [if_neg (by simp [hScheduled])] at hCall
    have goesOn {v : Supervisor} (hGrows : Grows s v) (hLeaver : r.leaver = none)
        (hResume : resumeCurrent r.answers p v = .ok u t) : Serves r.leaver [] s t := by
      rw [hLeaver]
      rcases resumeCurrent_ok hResume with ⟨_, _, rfl⟩ | ⟨_, rfl⟩
      · exact .of_grows (hGrows.trans (.same rfl rfl)) nofun
      · exact .of_grows hGrows (by simp)
    cases op with
    | entry =>
      have hLeaver : r.leaver = none := by simp only [Report.leaver, hStatus, hOp]
      simp only [bind_ok_iff] at hCall
      obtain ⟨b, v, hEntry, hCall⟩ := hCall
      have hEntered := onSyscallEntry_ok hEntry
      cases b with
      | false => exact goesOn (hEntered.grows h.parked.queued) hLeaver hCall
      | true =>
        simp only [if_true, modify_apply] at hCall
        cases hCall
        cases hEntered with
        | wait _ _ hQuiet =>
          have hQueue : v.runnable = s.runnable := hQuiet.runnable
          refine .kept [] ?_ nofun fun q hq _ hWaits => ?_
          · simpa using hQueue
          · rw [hQueue] at hWaits
            exact (h.runnable q hWaits).2.1 hq
    | exit =>
      have hLeaver : r.leaver = some p := by simp only [Report.leaver, hStatus, hOp]
      simp only [bind_ok_iff] at hCall
      obtain ⟨_, v, hExit, hCall⟩ := hCall
      have hLeft := onSyscallExit_quiet hExit
      rcases yieldCurrent_ok hCall with ⟨hCurrent, hPicks⟩ | ⟨hCurrent, _⟩
      · obtain ⟨hv, _⟩ := h.searched hEffects hStatus hAllows (.yield hScheduled hCurrent hLeft)
        rcases hv.picks_head hPicks with ⟨hEmpty, _⟩ | ⟨tid, hHead, hPicked⟩
        · exact absurd hEmpty (by simp [enqueue])
        · refine .served [p] tid ?_ hPicked fun hWas => ?_
          · rw [← hHead]
            simp [enqueue, hLeft.runnable]
          · rw [hNow hScheduled] at hWas
            rw [hLeaver, hWas]
      · exact absurd (hLeft.current.trans (hNow hScheduled)) hCurrent
    | none => exact goesOn (.same rfl rfl) (by simp only [Report.leaver, hStatus, hOp]) hCall
    | seccomp => exact goesOn (.same rfl rfl) (by simp only [Report.leaver, hStatus, hOp]) hCall
  · cases dispatchSyscall_ok hCall with
    | concurrent _ hQuiet _ =>
      refine .of_grows ⟨⟨[], ?_⟩, hQuiet.current⟩ fun q hq hLeaver => ?_
      · rw [List.append_nil]
        exact hQuiet.runnable
      · have hEnds : q = p := by
          simp only [Report.leaver, hStatus] at hLeaver
          split at hLeaver
          · exact (Option.some.inj hLeaver).symm
          · cases hLeaver
        rw [hEnds] at hq
        rcases h.current p hq with ⟨hYes, _⟩ | ⟨hNot, _⟩
        · exact hScheduled hYes
        · rw [hKnown] at hNot
          cases hNot
    | wait hYes => exact absurd hYes hScheduled
    | entry hYes => exact absurd hYes hScheduled
    | stay hYes => exact absurd hYes hScheduled
    | yield hYes => exact absurd hYes hScheduled
    | pick hYes => exact absurd hYes hScheduled

theorem onThreadExit_runnable (hQueued : s.Queued) (p : Pid) (record : Bool) : ∃ joined,
    (s.onThreadExit p record).runnable = (s.runnable.filter fun q => q ∉ [p]) ++ joined ∧
      p ∉ (s.onThreadExit p record).runnable := by
  obtain ⟨addr, m, v, hMoved, hQuiet⟩ := onThreadExit_spec hQueued p record
  have hRunnable : (s.onThreadExit p record).runnable = v.runnable.filter fun q => q ≠ p :=
    hQuiet.runnable
  rw [hRunnable, hMoved.runnable]
  refine ⟨((s.parkedOn addr).take m).filter fun q => q ≠ p, ?_, by simp⟩
  rw [List.filter_append]
  simp only [List.mem_singleton]
  rfl

theorem death_serves (h : Placed s awaits w) (hEffects : s.effects = [])
    (hStatus : r.status = .ok status) (hAllows : w.allows r = true)
    (hDeath : status.death = some p) (hExit : dispatchExit r.answers p s = .ok u t) :
    Serves r.leaver [p] s t := by
  have hLeaver : r.leaver = none := by
    cases status with
    | exited q code => simp only [Report.leaver, hStatus]
    | signaled q sig core => simp only [Report.leaver, hStatus]
    | _ => cases hDeath
  rcases dispatchExit_ok hExit with ⟨hCurrent, _, hPicks⟩ | ⟨_, rfl⟩
  · obtain ⟨joined, hJoined, hGone⟩ := onThreadExit_runnable h.parked.queued p true
    obtain ⟨hv, _⟩ := h.searched hEffects hStatus hAllows (.died hDeath hCurrent)
    rcases hv.picks_head hPicks with ⟨hEmpty, hNone, hFree⟩ | ⟨tid, hHead, hPicked⟩
    · refine .kept joined ?_ (fun q hq => ?_) fun q _ _ => ?_
      · rw [hNone, ← hJoined]
        exact hEmpty.symm
      · rw [hFree] at hq
        cases hq
      · rw [hNone]
        exact List.not_mem_nil
    · have hQueue : (s.onThreadExit p true).runnable = tid :: t.runnable := hHead
      refine .served joined tid (hJoined.symm.trans hQueue) hPicked fun hWas => ?_
      rw [hCurrent] at hWas
      cases hWas
      rw [hQueue] at hGone
      exact absurd List.mem_cons_self hGone
  · obtain ⟨joined, hJoined, _⟩ := onThreadExit_runnable h.parked.queued p (s.current = some p)
    have hSame : (s.onThreadExit p (s.current = some p)).current = s.current := by
      rw [onThreadExit_frame]
    refine .kept joined hJoined (fun q hq => ?_) fun q hq hNone => ?_
    · rw [hSame] at hq
      rw [hLeaver]
      exact ⟨hq, nofun⟩
    · rw [hSame, hq] at hNone
      cases hNone

theorem dispatch_serves {flow : Flow} (h : Placed s awaits w) (hEffects : s.effects = [])
    (hStatus : r.status = .ok status) (hAllows : w.allows r = true)
    (hDispatch : dispatch r.answers status s = .ok flow v) (hFlow : ∀ code, flow ≠ .exit code) :
    Serves r.leaver r.death.toList s v := by
  have hGone : r.death = status.death := by rw [Report.death, hStatus]
  have hDispatched := dispatch_ok hDispatch
  rw [hGone]
  by_cases hCall : ∃ p, status = .ptraceSyscall p
  · obtain ⟨p, rfl⟩ := hCall
    obtain ⟨_, _, hHandled, ⟨⟩⟩ := bind_ok_iff.mp hDispatch
    exact h.dispatchSyscall_serves hEffects hStatus hAllows hHandled
  have hNotCall : ∀ p, status ≠ .ptraceSyscall p := fun p hp => hCall ⟨p, hp⟩
  cases hDeath : status.death with
  | none =>
    have hLeaver : r.leaver = none := by
      cases status with
      | ptraceSyscall p => exact absurd rfl (hNotCall p)
      | _ => simp only [Report.leaver, hStatus]
    rw [hLeaver]
    exact .of_grows (hDispatched.grows hNotCall hDeath) (by simp)
  | some p =>
    cases hDispatched with
    | finished => exact absurd rfl (hFlow _)
    | died hDied _ hExit =>
      cases hDied.symm.trans hDeath
      exact h.death_serves hEffects hStatus hAllows hDeath hExit
    | idle hIdle =>
      rcases hIdle with ⟨q, rfl⟩ | rfl
      · cases hDeath
      · cases hDeath
    | _ => cases hDeath

theorem pass_serves (h : Placed s awaits w) (hUnique : w.Announced) (hEffects : s.effects = [])
    (hStatus : r.status = .ok status) (hAllows : w.allows r = true)
    (hPass : pass r.answers awaits status s = .ok (.wait awaits') t) :
    Serves r.leaver r.death.toList s t := by
  rcases pass_wait hPass with ⟨flow, v, hDispatch, hFlow, hTail⟩ |
    ⟨a, outer, v, v', rfl, rfl, hRelease, hResume, hTail⟩
  · have hServes := h.dispatch_serves hEffects hStatus hAllows hDispatch hFlow
    rcases hTail with rfl | hTail
    · exact hServes
    · exact (h.dispatched hUnique hEffects hStatus hAllows (dispatch_ok hDispatch) hFlow).serves_runsOn
        hServes hTail
  · have hReleased := release_grows hRelease
    have hGrows : Grows s v' :=
      Grows.trans ⟨hReleased.runnable, hReleased.current⟩ (resumeTask_grows hResume)
    have hLeaver : r.leaver = none := by simp only [Report.leaver, hStatus]
    have hAlive : r.death = none := by simp only [Report.death, hStatus, WaitStatus.death]
    have hServes : Serves r.leaver r.death.toList s v' := by
      rw [hLeaver, hAlive]
      exact .of_grows hGrows (by simp)
    rcases hTail with rfl | hTail
    · exact hServes
    · exact (h.returned hEffects hStatus hAllows hRelease hResume).serves_runsOn hServes hTail

end Placed

namespace World

variable {pid : Pid} {seed : U64} {w : World} {l : Label}

def picked (w : World) (r : Report) : Option Pid :=
  chosen r.leaver w.machine.sv.current (w.machine.step r).sv.current

/-- An observer writes down who is picked and who dies. -/
def picks (h : List (Departure Pid)) (w : World) : Label → List (Departure Pid)
  | .report r => h ++ departures r.death.toList (w.picked r).toList
  | _ => h

theorem picks_standing {ahead : List Pid} {x y : World × List (Departure Pid)}
    (hReach : (system pid seed).Reach Unheld x.1)
    (hStep : ((system pid seed).observed picks []).step x l = some y)
    (hOpen : y.1.machine.result = none) (hAlive : l.death ≠ some p)
    (h : Standing ahead p x.2 x.1.machine.sv.runnable) :
    Standing ahead p y.2 y.1.machine.sv.runnable := by
  obtain ⟨hNext, hNote⟩ := System.observed_step hStep
  rw [hNote]
  cases l with
  | spawn p' c thread vm =>
    rw [spawn_machine hNext]
    exact h
  | exec p' =>
    rw [exec_machine hNext]
    exact h
  | report r =>
    obtain ⟨hRunning, hAllows, hMachine, _⟩ := observe_eq_some hNext
    rw [hMachine] at hOpen ⊢
    obtain ⟨status, hStatus, hPass⟩ := Machine.step_pass hRunning hOpen
    have hRead : Placed { x.1.machine.sv with effects := [] } x.1.machine.awaits x.1.tracees :=
      (placed hReach hRunning).congr rfl rfl rfl rfl rfl rfl rfl
    refine h.step ?_ fun _ => (hRead.pass_serves (announced hReach) rfl hStatus hAllows hPass).step
    rw [Option.mem_toList]
    exact hAlive

theorem turns_fair (hReach : (system pid seed).Reach Unheld w)
    (hOpen : w.machine.result = none) {ahead behind : List Pid}
    (hRunnable : w.machine.sv.runnable = ahead ++ p :: behind) {labels : List Label}
    {x : World × List (Departure Pid)}
    (hRun : ((system pid seed).observed picks []).Run
      (fun x l => x.1.Unheld l ∧ l.death ≠ some p) (w, []) labels x)
    (hStill : x.1.machine.result = none) : Fair ahead p x.2 := by
  have hAhead : p ∉ ahead := by
    have hNodup := (placed hReach hOpen).nodup
    rw [hRunnable] at hNodup
    exact fun hp => List.disjoint_of_nodup_append hNodup hp List.mem_cons_self
  suffices hStanding : (system pid seed).Reach Unheld x.1 ∧
      (x.1.machine.result = none → Standing ahead p x.2 x.1.machine.sv.runnable) from
    (hStanding.2 hStill).fair
  refine hRun.invariant (I := fun x => (system pid seed).Reach Unheld x.1 ∧
    (x.1.machine.result = none → Standing ahead p x.2 x.1.machine.sv.runnable)) ?_ ?_
  · refine ⟨hReach, fun _ => ?_⟩
    change Standing ahead p [] w.machine.sv.runnable
    rw [hRunnable]
    exact .start ahead behind p hAhead
  · rintro x l y ⟨hBefore, hStands⟩ ⟨hUnheld, hAlive⟩ hStep
    have hNext := (System.observed_step hStep).1
    refine ⟨hBefore.step l hUnheld hNext, fun hGoesOn => ?_⟩
    exact picks_standing hBefore hStep hGoesOn hAlive (hStands (running_of_step hNext hGoesOn))

/-- As long as no new task gets a pid that is still held: a thread that is ready and stays alive is
picked after no more others than stood ahead of it in the queue, and after all of them that stayed
alive. -/
theorem picks_in_turn (hReach : (system pid seed).Reach Unheld w)
    (hOpen : w.machine.result = none) {ahead behind : List Pid}
    (hRunnable : w.machine.sv.runnable = ahead ++ p :: behind) {labels : List Label}
    {x : World × List (Departure Pid)}
    (hRun : ((system pid seed).observed picks []).Run
      (fun x l => x.1.Unheld l ∧ l.death ≠ some p) (w, []) labels x)
    (hStill : x.1.machine.result = none) : Fair ahead p x.2 :=
  turns_fair hReach hOpen hRunnable hRun hStill

theorem picks_in_turn_three : ∃ (w : World) (x : World × List (Departure Pid)),
    (system 1 0).Reach Unheld w ∧ w.machine.sv.runnable = [2, 1] ∧
      x.2 = [.served 2, .served 1] ∧ Fair [2] 1 x.2 := by
  have hRun : ((system 1 0).exec Unheld (start 1 0 {}) threeThreads).bind (fun w =>
      (((system 1 0).observed picks []).exec (fun x l => x.1.Unheld l) (w, [])
        [.report (.leaves 3), .report (.leaves 2)]).map fun x =>
          (w.machine.sv.runnable, x.1.machine.result.isNone, x.2)) =
      some ([2, 1], true, [.served 2, .served 1]) := by decide +kernel
  obtain ⟨w, hExec, hw⟩ := Option.bind_eq_some_iff.mp hRun
  obtain ⟨x, hTurns, hx⟩ := Option.map_eq_some_iff.mp hw
  simp only [Prod.mk.injEq, Option.isNone_iff_eq_none] at hx
  obtain ⟨hRunnable, hStill, hHistory⟩ := hx
  have hReach : (system 1 0).Reach Unheld w := System.reach_of_exec ⟨{}, rfl⟩ hExec
  have hSteps := System.run_of_exec_mem (P := fun l => l.death ≠ some 1) hTurns (by decide +kernel)
  have hOpen := running_of_run hSteps hStill
  have hAhead : w.machine.sv.runnable = [2] ++ 1 :: [] := hRunnable
  exact ⟨w, x, hReach, hRunnable, hHistory, picks_in_turn hReach hOpen hAhead hSteps hStill⟩

/-- Process 2 makes a thread 3 and kills it while it awaits the attach stop of its child 4. The
thread stays current, and a thread of process 6 that is given its pid joins the queue; then the end
of the await resumes that one. -/
def queuedAndCurrent : List Label :=
  [.spawn 1 2 false false, .report (.created 1 .fork 2), .report (.plain (.stopped 2 .SIGSTOP)),
   .spawn 1 6 false false, .report (.created 1 .fork 6), .report (.plain (.stopped 6 .SIGSTOP)),
   .report (.enters 2 { origRax := 56, rdi := threadFlags }), .spawn 2 3 true true,
   .report (.created 2 .clone 3), .report (.plain (.stopped 3 .SIGSTOP)), .report (.leaves 1),
   .spawn 3 4 false false, .report (.created 3 .fork 4), .report (.enters 2 { origRax := 231 }),
   .report (.plain (.exited 3 0)),
   .report (.enters 6 { origRax := 56, rdi := threadFlags }), .spawn 6 3 true true,
   .report (.created 6 .clone 3), .report (.plain (.stopped 3 .SIGSTOP)),
   .report (.plain (.stopped 4 .SIGSTOP))]

/-- The thread parks, and `schedule_next` passes over it where it stands in the queue. -/
def parksQueued : List Label := [calls 3 { origRax := 202, rdi := 4096 }, .report (.leaves 1)]

/-- Thread 1 is picked twice while thread 3, behind it alone, is not. -/
theorem not_picks_in_turn : ¬ ∀ (pid : Pid) (seed : U64) (w : World),
    (system pid seed).Reach System.free w → w.machine.result = none →
    ∀ (p : Pid) (ahead behind : List Pid), w.machine.sv.isScheduled p = true →
      w.machine.sv.runnable = ahead ++ p :: behind →
      ∀ (labels : List Label) (x : World × List (Departure Pid)),
        ((system pid seed).observed picks []).Run (fun _ l => l.death ≠ some p) (w, []) labels x →
        x.1.machine.result = none → Fair ahead p x.2 := by
  intro hAll
  have hRun : ((system 1 0).exec System.free (start 1 0 {}) queuedAndCurrent).bind (fun w =>
      (((system 1 0).observed picks []).exec System.free (w, []) parksQueued).map fun x =>
        (w.machine.sv.isScheduled 3, w.machine.sv.runnable, x.1.machine.result.isNone, x.2)) =
      some (true, [1, 3], true, [.served 1, .served 1]) := by decide +kernel
  obtain ⟨w, hExec, hw⟩ := Option.bind_eq_some_iff.mp hRun
  obtain ⟨x, hTurns, hx⟩ := Option.map_eq_some_iff.mp hw
  simp only [Prod.mk.injEq, Option.isNone_iff_eq_none] at hx
  obtain ⟨hScheduled, hRunnable, hStill, hHistory⟩ := hx
  have hSteps : ((system 1 0).observed picks []).Run (fun _ l => l.death ≠ some 3) (w, [])
      parksQueued x :=
    (System.run_of_exec_mem (P := fun l => l.death ≠ some 3) hTurns (by decide +kernel)).mono
      fun _ _ => And.right
  have hFair := hAll 1 0 w (System.reach_of_exec ⟨{}, rfl⟩ hExec) (running_of_run hSteps hStill) 3
    [1] [] hScheduled hRunnable parksQueued x hSteps hStill
  have hBounded := hFair.bounded
  rw [hHistory] at hBounded
  exact absurd hBounded (by decide)

end World

end Dtrun
