import Dtrun.Supervisor.Parking

/-! # Nobody is kept after death

Whoever waits to run, is parked, or was seen at the attach stop before being registered, is a task
that still lives. Pids enter these collections only while their task reports, and leave all of them
when its death is reported.
-/
namespace Dtrun
set_option autoImplicit false
open FiniteMap Transition Supervisor

variable {k : Answers} {s s' : Supervisor} {t : Tracees} {p q : Pid}

namespace Supervisor

def Holds (s : Supervisor) (q : Pid) : Prop :=
  q ∈ s.runnable ∨ q ∈ s.blocked ∨ q ∈ s.stoppedPending

theorem Holds.congr (hRunnable : s'.runnable = s.runnable) (hBlocked : s'.blocked = s.blocked)
    (hStopped : s'.stoppedPending = s.stoppedPending) (h : s'.Holds q) : s.Holds q := by
  rwa [Holds, hRunnable, hBlocked, hStopped] at h

theorem Holds.quiet (hQuiet : Quiet s s') (h : s'.Holds q) : s.Holds q :=
  h.congr hQuiet.runnable hQuiet.blocked hQuiet.stoppedPending

theorem Holds.enqueue (h : (s.enqueue p).Holds q) : s.Holds q ∨ q = p := by
  rcases h with hq | hq | hq
  · rcases List.mem_append.mp hq with hq | hq
    · exact .inl (.inl hq)
    · exact .inr (List.mem_singleton.mp hq)
  · exact .inl (.inr (.inl hq))
  · exact .inl (.inr (.inr hq))

theorem Holds.unparked {addr : U64} {m : Nat} (hQueued : s.Queued)
    (hMoved : Unparked addr m s s') (h : s'.Holds q) : s.Holds q := by
  rcases h with hq | hq | hq
  · rw [hMoved.runnable] at hq
    rcases List.mem_append.mp hq with hq | hq
    · exact .inl hq
    · exact .inr (.inl (hQueued.mem_blocked (List.mem_of_mem_take hq)))
  · rw [hMoved.blocked] at hq
    exact .inr (.inl (Finset.mem_sdiff.mp hq).1)
  · rw [hMoved.stoppedPending] at hq
    exact .inr (.inr hq)

theorem Holds.forget (h : (s.forget p).Holds q) : s.Holds q ∧ q ≠ p := by
  rcases h with hq | hq | hq
  · obtain ⟨hq, hne⟩ := List.mem_filter.mp hq
    exact ⟨.inl hq, by simpa using hne⟩
  · obtain ⟨hne, hq⟩ := Finset.mem_erase.mp hq
    exact ⟨.inr (.inl hq), hne⟩
  · obtain ⟨hne, hq⟩ := Finset.mem_erase.mp hq
    exact ⟨.inr (.inr hq), hne⟩

theorem Holds.onThreadExit {record : Bool} (hQueued : s.Queued)
    (h : (s.onThreadExit p record).Holds q) : s.Holds q ∧ q ≠ p := by
  obtain ⟨addr, m, v, hMoved, hQuiet⟩ := onThreadExit_spec hQueued p record
  obtain ⟨hv, hne⟩ := (h.quiet hQuiet).forget
  exact ⟨hv.unparked (s := { s with threads := s.threads.erase p }) (hQueued.congr rfl rfl) hMoved, hne⟩

end Supervisor

theorem Picks.holds (hPicks : Picks k s s') (h : s'.Holds q) : s.Holds q := by
  cases hPicks with
  | idle hSkips hExpected =>
    rcases h with hq | hq
    · cases hq
    · exact .inr hq
  | @run skipped rest tid thread hQueue hSkips hLookup hBlocked hOk =>
    rw [scheduled_frame] at h
    rcases h with hq | hq
    · refine .inl ?_
      rw [hQueue]
      exact List.mem_append_right _ (List.mem_cons_of_mem _ hq)
    · exact .inr hq

theorem RunsOn.holds (hTail : RunsOn k s s') (h : s'.Holds q) : s.Holds q := by
  rcases hTail with ⟨_, hPicks⟩ | ⟨_, rfl⟩
  · exact hPicks.holds h
  · exact h

theorem release_holds (hRelease : release k p s = .ok () s') (h : s'.Holds q) :
    s.Holds q ∨ q = p := by
  rcases release_ok hRelease with ⟨_, rfl⟩ | ⟨_, _, rfl⟩
  · exact h.enqueue
  · exact .inl h

theorem resumeTask_holds (hResume : resumeTask k p s = .ok () s') (h : s'.Holds q) :
    s.Holds q := by
  rcases resumeTask_ok hResume with ⟨_, rfl, _⟩ | ⟨_, _, rfl⟩
  · exact h
  · exact h

theorem Entered.holds {b : Bool} (hQueued : s.Queued) (hEntered : Entered k p s b s')
    (h : s'.Holds q) : s.Holds q ∨ q = p := by
  cases hEntered with
  | quiet hQuiet => exact .inl (h.quiet hQuiet)
  | @wake s' regs vals hRegs hScheduled hQuiet =>
    obtain ⟨m, hMoved⟩ := hQueued.wakes regs.rdi vals
    exact .inl ((h.quiet hQuiet).unparked hQueued hMoved)
  | @wait s' regs hRegs hScheduled hQuiet =>
    rcases h.quiet hQuiet with hq | hq | hq
    · exact .inl (.inl hq)
    · rcases Finset.mem_insert.mp hq with hq | hq
      · exact .inr hq
      · exact .inl (.inr (.inl hq))
    · exact .inl (.inr (.inr hq))

theorem SyscallHandled.holds (hQueued : s.Queued) (hHandled : SyscallHandled k p s s')
    (h : s'.Holds q) : s.Holds q ∨ q = p := by
  cases hHandled with
  | concurrent hConcurrent hQuiet hOk => exact .inl (Holds.quiet hQuiet h)
  | wait hScheduled hEntered => exact hEntered.holds hQueued h
  | entry hScheduled hCurrent hEntered hOk => exact hEntered.holds hQueued h
  | stay hScheduled hCurrent hEntered => exact hEntered.holds hQueued h
  | @yield v _ hScheduled hCurrent hQuiet hPicks =>
    exact (hPicks.holds h).enqueue.imp_left fun hv => Holds.quiet hQuiet hv
  | pick hScheduled hCurrent hQuiet hPicks => exact .inl ((hPicks.holds h).quiet hQuiet)

theorem Registered.holds {info : CloneInfo} (hRegister : Registered k p info s s')
    (h : s'.Holds q) : s.Holds q := by
  cases hRegister with
  | again hRegistered => exact h
  | @released v _ hFresh hStopped hRelease hQuiet =>
    rcases release_holds hRelease (h.quiet hQuiet) with hq | rfl
    · rcases hq with hq | hq | hq
      · exact .inl hq
      · exact .inr (.inl hq)
      · exact .inr (.inr (Finset.mem_of_mem_erase hq))
    · exact .inr (.inr hStopped)
  | expected hFresh hStopped hQuiet =>
    have hOld := h.quiet hQuiet
    exact hOld

theorem StopHandled.holds {sig : Signal} (hStop : StopHandled k p sig s s') (h : s'.Holds q) :
    s.Holds q ∨ q = p := by
  cases hStop with
  | current hCurrent hSig hOk => exact .inl h
  | attached hCurrent hSig hStart hRelease =>
    have hOld := release_holds hRelease h
    exact hOld
  | early hCurrent hSig hStart hRegistered =>
    rcases h with hq | hq | hq
    · exact .inl (.inl hq)
    · exact .inl (.inr (.inl hq))
    · rcases Finset.mem_insert.mp hq with hq | hq
      · exact .inr hq
      · exact .inl (.inr (.inr hq))
  | again hCurrent hSig hStart hRegistered => exact .inl h
  | signal hSig hOk hWho => exact .inl h
  | noted hSig hCurrent hWho hQuiet => exact .inl (h.quiet hQuiet)

def WaitStatus.stop : WaitStatus → Option Pid
  | .ptraceSyscall p | .ptraceEvent p _ _ | .stopped p _ => some p
  | _ => none

theorem Dispatched.holds {status : WaitStatus} {flow : Flow} (hQueued : s.Queued)
    (hDispatched : Dispatched k s status flow s') (hFlow : ∀ code, flow ≠ .exit code)
    (h : s'.Holds q) : (s.Holds q ∧ status.death ≠ some q) ∨ status.stop = some q := by
  have alive {p : Pid} (hDeath : status.death = none) (hStop : status.stop = some p)
      (h : s.Holds q ∨ q = p) :
      (s.Holds q ∧ status.death ≠ some q) ∨ status.stop = some q := by
    rcases h with hq | rfl
    · exact .inl ⟨hq, by simp [hDeath]⟩
    · exact .inr hStop
  cases hDispatched with
  | syscall hHandled => exact alive rfl rfl (hHandled.holds hQueued h)
  | @clone p child sig event v _ _ hEvent hChild hRegister hFlow =>
    refine alive rfl rfl (.inl ?_)
    have hv : v.Holds q := by
      rcases hFlow with ⟨_, _, rfl⟩ | ⟨_, _, hResume⟩
      · exact h
      · exact resumeTask_holds hResume h
    exact hRegister.holds hv
  | dying hOk => exact alive rfl rfl (.inl h)
  | event hEvent hExit hResume => exact alive rfl rfl (.inl (resumeTask_holds hResume h))
  | stopped hStop => exact alive rfl rfl (hStop.holds h)
  | finished hDeath hQuiet => exact absurd rfl (hFlow _)
  | @died _ p _ hDeath hOther hExit =>
    have hLeft : ∀ record, (s.onThreadExit p record).Holds q →
        s.Holds q ∧ status.death ≠ some q := by
      intro record hq
      obtain ⟨hq, hne⟩ := hq.onThreadExit hQueued
      exact ⟨hq, by simpa [hDeath] using hne.symm⟩
    rcases dispatchExit_ok hExit with ⟨_, _, hPicks⟩ | ⟨_, rfl⟩
    · exact .inl (hLeft true (hPicks.holds h))
    · exact .inl (hLeft _ h)
  | idle hIdle =>
    refine .inl ⟨h, ?_⟩
    rcases hIdle with ⟨p, rfl⟩ | rfl
    · simp [WaitStatus.death]
    · simp [WaitStatus.death]

theorem Passed.holds {awaits awaits' : List Await} {status : WaitStatus} (hQueued : s.Queued)
    (hPassed : Passed k s awaits status (.wait awaits') s') (h : s'.Holds q) :
    (s.Holds q ∧ status.death ≠ some q) ∨ status.stop = some q := by
  cases hPassed with
  | next hDispatched hTail => exact hDispatched.holds hQueued (by simp) (hTail.holds h)
  | again hOther hDispatched => exact hDispatched.holds hQueued (by simp) h
  | await hDispatched => exact hDispatched.holds hQueued (by simp) h
  | @attached w _ v v' _ hRelease hResume hTail =>
    have hv' : v'.Holds q := by
      rcases hTail with ⟨_, hTail⟩ | ⟨_, rfl⟩
      · exact hTail.holds h
      · exact h
    have hOld := release_holds hRelease (resumeTask_holds hResume hv')
    rcases hOld with hq | rfl
    · exact .inl ⟨hq, by simp [WaitStatus.death]⟩
    · exact .inr rfl

namespace Tracees

theorem phase_observe_ne_none {r : Report} {status : WaitStatus} (hStatus : r.status = .ok status)
    (hDeath : status.death ≠ some q) (h : t.phase q ≠ none) : (t.observe r).phase q ≠ none := by
  have kept (p : Pid) (x : Phase) : (t.setPhase p x).phase q ≠ none := by
    rw [phase_setPhase]
    split
    · rename_i hEq
      simpa [← hEq] using h
    · exact h
  cases status with
  | ptraceSyscall p =>
    rw [phase_observe_syscall hStatus]
    exact kept _ _
  | ptraceEvent p sig event =>
    by_cases hExit : event = .exit
    · subst hExit
      rw [phase_observe_dying hStatus]
      exact kept _ _
    · rw [phase_observe_event hStatus hExit]
      exact kept _ _
  | stopped p sig =>
    by_cases hSig : sig = .SIGSTOP
    · subst hSig
      rw [phase_observe_attach hStatus]
      exact kept _ _
    · rw [phase_observe_signal hStatus hSig]
      split
      · exact h
      · exact kept _ _
  | exited p code =>
    rw [phase_observe_death hStatus rfl, if_neg fun hEq => hDeath (congrArg some hEq.symm)]
    exact h
  | signaled p sig core =>
    rw [phase_observe_death hStatus rfl, if_neg fun hEq => hDeath (congrArg some hEq.symm)]
    exact h
  | continued p => simpa [observe, hStatus] using h
  | stillAlive => simpa [observe, hStatus] using h

theorem allows_stop {r : Report} {status : WaitStatus} (hStatus : r.status = .ok status)
    (hStop : status.stop = some p) (h : t.allows r = true) : t.phase p ≠ none := by
  cases status with
  | ptraceSyscall p =>
    cases hStop
    simp [allows_syscall hStatus h]
  | ptraceEvent p sig event =>
    cases hStop
    by_cases hExit : event = .exit
    · subst hExit
      rcases allows_dying hStatus h with hp | hp | hp
      · simp [hp]
      · simp [hp]
      · simp [hp]
    · simp [allows_event hStatus hExit h]
  | stopped p sig =>
    cases hStop
    by_cases hSig : sig = .SIGSTOP
    · subst hSig
      simp [allows_attach hStatus h]
    · rcases allows_signal hStatus hSig h with hp | hp
      · simp [hp]
      · simp [hp]
  | exited p code => cases hStop
  | signaled p sig core => cases hStop
  | continued p => cases hStop
  | stillAlive => cases hStop

theorem death_ne_stop {status : WaitStatus} (hStop : status.stop = some p) :
    status.death ≠ some p := by
  cases status <;> simp_all [WaitStatus.stop, WaitStatus.death]

end Tracees

/-- In every reachable world whose supervisor is still running, the tasks it holds live. -/
theorem World.living {pid : Pid} {seed : U64} {ok : World → Label → Prop} {w : World}
    (h : (system pid seed).Reach ok w) (hOpen : w.machine.result = none) :
    ∀ q, w.machine.sv.Holds q → w.tracees.phase q ≠ none := by
  refine System.Reach.invariant (I := fun w => w.machine.result = none →
    ∀ q, w.machine.sv.Holds q → w.tracees.phase q ≠ none) ?_ ?_ h hOpen
  · rintro _ ⟨k, rfl⟩ hOpen q hq
    obtain ⟨_, hPicks⟩ := Machine.start_wait hOpen
    have hInit : q = pid := by
      rcases hPicks.holds hq with hq | hq | hq
      · exact List.mem_singleton.mp hq
      · exact absurd hq (Finset.notMem_empty q)
      · exact absurd hq (Finset.notMem_empty q)
    change ((alone pid).after _).phase q ≠ none
    rw [ne_eq, Tracees.phase_after_eq_none, hInit]
    simp [Tracees.phase, Tracees.task, alone, Map.get_singleton]
  · intro w l w' hReach hLiving _ hStep hOpen q hq
    cases l with
    | spawn p c thread vm =>
      have hMachine := spawn_machine hStep
      rw [hMachine] at hOpen hq
      rw [spawn_phase hStep]
      split
      · simp
      · exact hLiving hOpen q hq
    | exec p =>
      have hMachine := exec_machine hStep
      rw [hMachine] at hOpen hq
      rw [exec_phase hStep]
      exact hLiving hOpen q hq
    | report r =>
      obtain ⟨status, hRunning, hAllows, hStatus, hTracees, hPassed⟩ := observe_wait hStep hOpen
      rw [hTracees, ne_eq, Tracees.phase_after_eq_none]
      have hQueued : Queued { w.machine.sv with effects := [] } :=
        (parked hReach hRunning).queued.congr rfl rfl
      rcases hPassed.holds hQueued hq with ⟨hOld, hDeath⟩ | hStop
      · exact Tracees.phase_observe_ne_none hStatus hDeath (hLiving hRunning q hOld)
      · exact Tracees.phase_observe_ne_none hStatus (Tracees.death_ne_stop hStop)
          (Tracees.allows_stop hStatus hStop hAllows)

end Dtrun
