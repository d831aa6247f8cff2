import Dtrun.Supervisor.Tracees

/-! # Parked threads stay parked

In every run, whatever pids the kernel hands out: a thread in a futex queue is a scheduled thread,
it is not the current one, it has not been resumed, and the queues agree with each other. The one
way out of a queue is a wake or the thread's death.
-/
namespace Dtrun
set_option autoImplicit false
open FiniteMap Transition Supervisor

variable {k : Answers} {s s' : Supervisor} {t t' : Tracees} {p : Pid}

structure Parked (s : Supervisor) (t : Tracees) : Prop where
  queued : s.Queued
  scheduled : ∀ q ∈ s.blocked, s.isScheduled q = true
  current : ∀ q ∈ s.blocked, s.current ≠ some q
  still : ∀ q ∈ s.blocked, t.Still q

namespace Parked

theorem not_blocked (h : Parked s t) (hPhase : ¬ t.Still p) : p ∉ s.blocked :=
  fun hp => hPhase (h.still p hp)

theorem not_blocked_of_concurrent (h : Parked s t) (hp : s.isScheduled p = false) :
    p ∉ s.blocked := by
  intro hBlocked
  rw [h.scheduled p hBlocked] at hp
  cases hp

theorem congr (h : Parked s t) (hBlocked : s'.blocked = s.blocked) (hWaiting : s'.waiting = s.waiting)
    (hThreads : s'.threads = s.threads) (hCurrent : s'.current = s.current ∨ s'.current = none) :
    Parked s' t := by
  refine ⟨h.queued.congr hBlocked hWaiting, fun q hq => ?_, fun q hq => ?_, fun q hq => ?_⟩
  · rw [isScheduled, hThreads]
    exact h.scheduled q (hBlocked ▸ hq)
  · rcases hCurrent with hSame | hNone
    · rw [hSame]
      exact h.current q (hBlocked ▸ hq)
    · rw [hNone]
      exact Option.some_ne_none q |>.symm
  · exact h.still q (hBlocked ▸ hq)

theorem quiet (h : Parked s t) (hQuiet : Quiet s s') : Parked s' t :=
  h.congr hQuiet.blocked hQuiet.waiting hQuiet.threads (.inl hQuiet.current)

theorem phases (h : Parked s t) (hPhase : ∀ q ∈ s.blocked, t'.phase q = t.phase q) :
    Parked s t' :=
  { h with still := fun q hq => (h.still q hq).congr (hPhase q hq) }

theorem resume (h : Parked s t) (hp : p ∈ s.blocked → t.phase p ≠ some .held) :
    Parked s (t.resume p) := by
  refine { h with still := fun q hq => (h.still q hq).resume fun hEq => ?_ }
  rw [← hEq]
  exact hp (hEq ▸ hq)

theorem resumed (h : Parked s (t.after s)) (hp : p ∈ s.blocked → (t.after s).phase p ≠ some .held) :
    Parked (s.resumed p) (t.after (s.resumed p)) := by
  rw [Tracees.after_resumed]
  exact (h.resume hp).congr rfl rfl rfl (.inl rfl)

theorem delivered (h : Parked s (t.after s)) (sig : Signal)
    (hp : p ∈ s.blocked → (t.after s).phase p ≠ some .held) :
    Parked (s.delivered p sig) (t.after (s.delivered p sig)) := by
  rw [Tracees.after_delivered]
  exact (h.resume hp).congr rfl rfl rfl (.inl rfl)

theorem wait (h : Parked s t) (hNew : p ∉ s.blocked) (hScheduled : s.isScheduled p = true)
    (hStill : t.Still p) (addr : U64) : Parked { s.block p addr with current := none } t := by
  have hQueued := h.queued.block hNew addr
  refine ⟨hQueued.congr rfl rfl, fun q hq => ?_, fun q _ => Option.some_ne_none q |>.symm,
    fun q hq => ?_⟩
  · rcases Finset.mem_insert.mp hq with rfl | hq
    · exact hScheduled
    · exact h.scheduled q hq
  · rcases Finset.mem_insert.mp hq with rfl | hq
    · exact hStill
    · exact h.still q hq

theorem unparked {addr : U64} {m : Nat} (h : Parked s t) (hMoved : Unparked addr m s s') :
    Parked s' t := by
  have hSub : ∀ q ∈ s'.blocked, q ∈ s.blocked := by
    rw [hMoved.blocked]
    exact fun q hq => (Finset.mem_sdiff.mp hq).1
  refine ⟨h.queued.unparked hMoved, fun q hq => ?_, fun q hq => ?_, fun q hq =>
    h.still q (hSub q hq)⟩
  · rw [isScheduled, hMoved.threads]
    exact h.scheduled q (hSub q hq)
  · rw [hMoved.current]
    exact h.current q (hSub q hq)

theorem exited (h : Parked s t) (record : Bool) (hPhase : ∀ q, q ≠ p → t'.phase q = t.phase q) :
    Parked (s.onThreadExit p record) t' := by
  obtain ⟨addr, m, v, hMoved, hQuiet⟩ := onThreadExit_spec h.queued p record
  have hSub : ∀ q ∈ (s.onThreadExit p record).blocked, q ∈ s.blocked ∧ q ≠ p := by
    intro q hq
    rw [hQuiet.blocked] at hq
    obtain ⟨hne, hq⟩ := Finset.mem_erase.mp hq
    rw [hMoved.blocked] at hq
    exact ⟨(Finset.mem_sdiff.mp hq).1, hne⟩
  refine ⟨h.queued.onThreadExit p record, fun q hq => ?_, fun q hq => ?_, fun q hq => ?_⟩
  · have hThreads : (s.onThreadExit p record).threads = s.threads.erase p :=
      hQuiet.threads.trans hMoved.threads
    rw [isScheduled, hThreads, Map.get_erase_ne _ (hSub q hq).2]
    exact h.scheduled q (hSub q hq).1
  · have hCurrent : (s.onThreadExit p record).current = s.current :=
      hQuiet.current.trans hMoved.current
    rw [hCurrent]
    exact h.current q (hSub q hq).1
  · exact (h.still q (hSub q hq).1).congr (hPhase q (hSub q hq).2)

theorem picks (h : Parked s (t.after s)) (hPicks : Picks k s s') : Parked s' (t.after s') := by
  cases hPicks with
  | idle hSkips hExpected => exact h.congr rfl rfl rfl (.inl rfl)
  | @run skipped rest tid thread hQueue hSkips hLookup hBlocked hOk =>
    refine resumed ?_ fun hNow => ?_
    · rw [scheduled_frame]
      refine ⟨h.queued.congr rfl rfl, h.scheduled, fun q hq => ?_, h.still⟩
      rintro ⟨⟩
      exact hBlocked hq
    · rw [scheduled_frame] at hNow
      exact absurd hNow hBlocked

theorem runsOn (h : Parked s (t.after s)) (hTail : RunsOn k s s') : Parked s' (t.after s') := by
  rcases hTail with ⟨_, hPicks⟩ | ⟨_, rfl⟩
  · exact h.picks hPicks
  · exact h

theorem resumeTask (h : Parked s (t.after s)) (hResume : Dtrun.resumeTask k p s = .ok () s') :
    Parked s' (t.after s') := by
  rcases resumeTask_ok hResume with ⟨_, rfl, hWho⟩ | ⟨_, _, rfl⟩
  · refine h.resumed fun hBlocked => ?_
    exact absurd (hWho (h.scheduled p hBlocked)) (h.current p hBlocked)
  · exact h

theorem release (h : Parked s (t.after s)) (hRelease : Dtrun.release k p s = .ok () s') :
    Parked s' (t.after s') := by
  rcases release_ok hRelease with ⟨_, rfl⟩ | ⟨hConcurrent, _, rfl⟩
  · exact h.congr rfl rfl rfl (.inl rfl)
  · exact h.resumed fun hBlocked => absurd hBlocked (h.not_blocked_of_concurrent hConcurrent)

theorem entered {b : Bool} (h : Parked s (t.after s)) (hNew : p ∉ s.blocked)
    (hStill : (t.after s).Still p) (hEntered : Entered k p s b s') :
    Parked { s' with current := if b then none else s'.current } (t.after s') := by
  cases hEntered with
  | quiet hQuiet =>
    rw [Tracees.after_of_quiet hQuiet]
    exact (h.quiet hQuiet).congr rfl rfl rfl (.inl rfl)
  | @wake s' regs vals hRegs hScheduled hQuiet =>
    obtain ⟨m, hMoved⟩ := h.queued.wakes regs.rdi vals
    rw [Tracees.after_of_quiet hQuiet, Tracees.after_of_effects hMoved.effects]
    exact ((h.unparked hMoved).quiet hQuiet).congr rfl rfl rfl (.inl rfl)
  | @wait s' regs hRegs hScheduled hQuiet =>
    rw [Tracees.after_of_quiet hQuiet]
    exact (h.wait hNew hScheduled hStill regs.rdi).congr hQuiet.blocked hQuiet.waiting
      hQuiet.threads (.inr rfl)

theorem syscall (h : Parked s (t.after s)) (hNew : p ∉ s.blocked) (hStill : (t.after s).Still p)
    (hHandled : SyscallHandled k p s s') : Parked s' (t.after s') := by
  have left {v : Supervisor} (hQuiet : Quiet s v) : Parked v (t.after v) := by
    rw [Tracees.after_of_quiet hQuiet]
    exact h.quiet hQuiet
  cases hHandled with
  | concurrent hConcurrent hQuiet hOk =>
    refine (left hQuiet).resumed fun hBlocked => absurd hBlocked ?_
    exact (left hQuiet).not_blocked_of_concurrent ((hQuiet.isScheduled p).trans hConcurrent)
  | wait hScheduled hEntered => exact h.entered hNew hStill hEntered
  | entry hScheduled hCurrent hEntered hOk =>
    have hv := h.entered hNew hStill hEntered
    exact hv.resumed fun hBlocked => absurd hCurrent (hv.current p hBlocked)
  | stay hScheduled hCurrent hEntered => exact h.entered hNew hStill hEntered
  | @yield v _ hScheduled hCurrent hQuiet hPicks =>
    have hv : Parked (({ v with current := none } : Supervisor).enqueue p) (t.after v) :=
      (left hQuiet).congr rfl rfl rfl (.inr rfl)
    exact hv.picks hPicks
  | pick hScheduled hCurrent hQuiet hPicks => exact (left hQuiet).picks hPicks

theorem registered {info : CloneInfo} (h : Parked s (t.after s))
    (hRegister : Registered k p info s s') : Parked s' (t.after s') := by
  have insert (thread : Thread) (hFresh : s.registered p = false) :
      ∀ q ∈ s.blocked, ({ s with threads := s.threads.insert p thread } :
        Supervisor).isScheduled q = true := by
    intro q hq
    have hScheduled := h.scheduled q hq
    have hne : q ≠ p := by
      rintro rfl
      simp [isScheduled, Supervisor.registered] at hFresh hScheduled
      simp [hFresh] at hScheduled
    simpa only [isScheduled, Map.get_insert_ne _ _ hne] using hScheduled
  cases hRegister with
  | again hRegistered => exact h
  | @released v _ hFresh hStopped hRelease hQuiet =>
    rw [Tracees.after_of_quiet hQuiet]
    refine quiet (release ?_ hRelease) hQuiet
    exact ⟨h.queued.congr rfl rfl, insert _ hFresh, h.current, h.still⟩
  | expected hFresh hStopped hQuiet =>
    rw [Tracees.after_of_quiet hQuiet]
    refine quiet ?_ hQuiet
    exact ⟨h.queued.congr rfl rfl, insert _ hFresh, h.current, h.still⟩

theorem stopped {sig : Signal} (h : Parked s (t.after s))
    (hStop : StopHandled k p sig s s') : Parked s' (t.after s') := by
  cases hStop with
  | current hCurrent hSig hOk =>
    exact h.resumed fun hBlocked => absurd hCurrent (h.current p hBlocked)
  | attached hCurrent hSig hStart hRelease =>
    refine release ?_ hRelease
    exact h.congr rfl rfl rfl (.inl rfl)
  | early hCurrent hSig hStart hRegistered => exact h.congr rfl rfl rfl (.inl rfl)
  | again hCurrent hSig hStart hRegistered => exact h
  | signal hSig hOk hWho =>
    refine h.delivered sig fun hBlocked => ?_
    rcases hWho with hCurrent | ⟨hConcurrent, _⟩
    · exact absurd hCurrent (h.current p hBlocked)
    · exact absurd hBlocked (h.not_blocked_of_concurrent hConcurrent)
  | noted hSig hCurrent hWho hQuiet =>
    rw [Tracees.after_of_quiet hQuiet]
    exact h.quiet hQuiet

theorem died (h : Parked s t) (hEffects : s.effects = [])
    (hPhase : ∀ q, q ≠ p → t'.phase q = t.phase q) (hExit : dispatchExit k p s = .ok () s') :
    Parked s' (t'.after s') := by
  have hLeft (record : Bool) : Parked (s.onThreadExit p record)
      (t'.after (s.onThreadExit p record)) := by
    rw [Tracees.after_nil (by rw [onThreadExit_frame, hEffects])]
    exact h.exited record hPhase
  rcases dispatchExit_ok hExit with ⟨_, _, hPicks⟩ | ⟨_, rfl⟩
  · have hFree : Parked { s.onThreadExit p true with current := none }
        (t'.after (s.onThreadExit p true)) := (hLeft true).congr rfl rfl rfl (.inr rfl)
    exact hFree.picks hPicks
  · exact hLeft _

/-- What a status says about its task leaves the parked threads alone: a parked thread reports
nothing but its death and the stop before it. -/
theorem observe {r : Report} {status : WaitStatus} (h : Parked s t)
    (hStatus : r.status = .ok status) (hAlive : status.death = none)
    (hAllows : t.allows r = true) : Parked s (t.observe r) := by
  have elsewhere {p : Pid} (x : Phase) (hp : ¬ t.Still p) : ∀ q ∈ s.blocked,
      (t.setPhase p x).phase q = t.phase q := by
    intro q hq
    rw [Tracees.phase_setPhase, if_neg]
    rintro rfl
    exact hp (h.still q hq)
  cases status with
  | exited p code => cases hAlive
  | signaled p sig core => cases hAlive
  | continued p => simpa [Tracees.observe, hStatus] using h
  | stillAlive => simpa [Tracees.observe, hStatus] using h
  | ptraceSyscall p =>
    have hPhase := Tracees.allows_syscall hStatus hAllows
    refine h.phases fun q hq => ?_
    rw [Tracees.phase_observe_syscall hStatus]
    exact elsewhere _ (by simp [Tracees.Still, hPhase]) q hq
  | ptraceEvent p sig event =>
    by_cases hExit : event = .exit
    · subst hExit
      refine { h with still := fun q hq => ?_ }
      rw [Tracees.Still, Tracees.phase_observe_dying hStatus, Tracees.phase_setPhase]
      split
      · rename_i hEq
        rcases Tracees.allows_dying hStatus hAllows with hPhase | hPhase | hPhase
        · simp [hPhase]
        · simp [hPhase]
        · simp [hPhase]
      · exact h.still q hq
    · have hPhase := Tracees.allows_event hStatus hExit hAllows
      refine h.phases fun q hq => ?_
      rw [Tracees.phase_observe_event hStatus hExit]
      exact elsewhere _ (by simp [Tracees.Still, hPhase]) q hq
  | stopped p sig =>
    by_cases hSig : sig = .SIGSTOP
    · subst hSig
      have hPhase := Tracees.allows_attach hStatus hAllows
      refine h.phases fun q hq => ?_
      rw [Tracees.phase_observe_attach hStatus]
      exact elsewhere _ (by simp [Tracees.Still, hPhase]) q hq
    · refine h.phases fun q hq => ?_
      rw [Tracees.phase_observe_signal hStatus hSig]
      split
      · rfl
      · refine elsewhere _ ?_ q hq
        rcases Tracees.allows_signal hStatus hSig hAllows with hPhase | hPhase
        · simp [Tracees.Still, hPhase]
        · simp [Tracees.Still, hPhase]

theorem dispatched {r : Report} {status : WaitStatus} {flow : Flow} (h : Parked s t)
    (hEffects : s.effects = []) (hStatus : r.status = .ok status) (hAllows : t.allows r = true)
    (hDispatched : Dispatched r.answers s status flow s') (hFlow : ∀ code, flow ≠ .exit code) :
    Parked s' ((t.observe r).after s') := by
  cases hDispatched with
  | finished hDeath hQuiet => exact absurd rfl (hFlow _)
  | @died _ p _ hDeath hOther hExit =>
    refine h.died hEffects (fun q hq => ?_) hExit
    rw [Tracees.phase_observe_death hStatus hDeath, if_neg hq]
  | @syscall p _ hHandled =>
    have hPhase := Tracees.allows_syscall hStatus hAllows
    have hObserved := h.observe hStatus rfl hAllows
    rw [← Tracees.after_nil (t := t.observe r) hEffects] at hObserved
    refine hObserved.syscall (h.not_blocked (by simp [Tracees.Still, hPhase])) ?_ hHandled
    rw [Tracees.after_nil hEffects, Tracees.Still, Tracees.phase_observe_syscall hStatus,
      Tracees.phase_setPhase, if_pos rfl, hPhase]
    exact .inl rfl
  | @clone p child sig event v _ _ hEvent hChild hRegister hFlow =>
    have hObserved := h.observe hStatus rfl hAllows
    rw [← Tracees.after_nil (t := t.observe r) hEffects] at hObserved
    have hRegistered := registered (s := { s with clonePending := s.clonePending.erase p })
      (hObserved.congr rfl rfl rfl (.inl rfl)) hRegister
    rcases hFlow with ⟨_, _, rfl⟩ | ⟨_, _, hResume⟩
    · exact hRegistered
    · exact hRegistered.resumeTask hResume
  | @dying p sig hOk =>
    have hObserved := h.observe hStatus rfl hAllows
    rw [← Tracees.after_nil (t := t.observe r) hEffects] at hObserved
    refine hObserved.resumed fun _ => ?_
    rw [Tracees.after_nil hEffects, Tracees.phase_observe_dying hStatus, Tracees.phase_setPhase,
      if_pos rfl]
    cases t.phase p <;> simp
  | @event p sig event _ hEvent hExit hResume =>
    have hObserved := h.observe hStatus rfl hAllows
    rw [← Tracees.after_nil (t := t.observe r) hEffects] at hObserved
    exact hObserved.resumeTask hResume
  | @stopped p sig _ hStop =>
    have hObserved := h.observe hStatus rfl hAllows
    rw [← Tracees.after_nil (t := t.observe r) hEffects] at hObserved
    exact hObserved.stopped hStop
  | idle hIdle =>
    rw [Tracees.after_nil hEffects]
    refine h.observe hStatus ?_ hAllows
    rcases hIdle with ⟨p, rfl⟩ | rfl
    · rfl
    · rfl

theorem passed {r : Report} {status : WaitStatus} {awaits awaits' : List Await} (h : Parked s t)
    (hEffects : s.effects = []) (hStatus : r.status = .ok status) (hAllows : t.allows r = true)
    (hPassed : Passed r.answers s awaits status (.wait awaits') s') :
    Parked s' ((t.observe r).after s') := by
  cases hPassed with
  | next hDispatched hTail =>
    exact (h.dispatched hEffects hStatus hAllows hDispatched (by simp)).runsOn hTail
  | again hOther hDispatched =>
    exact h.dispatched hEffects hStatus hAllows hDispatched (by simp)
  | await hDispatched => exact h.dispatched hEffects hStatus hAllows hDispatched (by simp)
  | @attached w _ v v' _ hRelease hResume hTail =>
    have hObserved := h.observe hStatus rfl hAllows
    rw [← Tracees.after_nil (t := t.observe r) hEffects] at hObserved
    have hv := release (s := { s with pendingStart := s.pendingStart.erase w.child })
      (hObserved.congr rfl rfl rfl (.inl rfl)) hRelease
    have hv' := hv.resumeTask hResume
    rcases hTail with ⟨_, hTail⟩ | ⟨_, rfl⟩
    · exact hv'.runsOn hTail
    · exact hv'

theorem fresh (pid : Pid) (seed : U64) (t : Tracees) : Parked (Machine.fresh pid seed) t := by
  refine ⟨.empty rfl rfl, fun q hq => ?_, fun q hq => ?_, fun q hq => ?_⟩
  · exact absurd hq (Finset.notMem_empty q)
  · exact absurd hq (Finset.notMem_empty q)
  · exact absurd hq (Finset.notMem_empty q)

end Parked

/-- In every reachable world whose supervisor is still running, the parked threads are parked. -/
theorem World.parked {pid : Pid} {seed : U64} {ok : World → Label → Prop} {w : World}
    (h : (system pid seed).Reach ok w) (hOpen : w.machine.result = none) :
    Parked w.machine.sv w.tracees := by
  refine System.Reach.invariant
    (I := fun w => w.machine.result = none → Parked w.machine.sv w.tracees) ?_ ?_ h hOpen
  · rintro _ ⟨k, rfl⟩ hOpen
    obtain ⟨_, hPicks⟩ := Machine.start_wait hOpen
    exact (Parked.fresh pid seed _).picks hPicks
  · intro w l w' _ hParked _ hStep hOpen
    cases l with
    | spawn p c thread vm =>
      have hMachine := spawn_machine hStep
      rw [hMachine] at hOpen ⊢
      refine (hParked hOpen).phases fun q hq => ?_
      obtain ⟨x, _, hChild, _⟩ := spawn_eq_some hStep
      rw [spawn_phase hStep, if_neg]
      rintro rfl
      exact (hParked hOpen).not_blocked (by simp [Tracees.Still, Tracees.phase, hChild]) hq
    | exec p =>
      have hMachine := exec_machine hStep
      rw [hMachine] at hOpen ⊢
      exact (hParked hOpen).phases fun q _ => exec_phase hStep q
    | report r =>
      obtain ⟨status, hRunning, hAllows, hStatus, hTracees, hPassed⟩ := observe_wait hStep hOpen
      rw [hTracees]
      have hRead : Parked { w.machine.sv with effects := [] } w.tracees :=
        (hParked hRunning).congr rfl rfl rfl (.inl rfl)
      exact hRead.passed rfl hStatus hAllows hPassed

end Dtrun
