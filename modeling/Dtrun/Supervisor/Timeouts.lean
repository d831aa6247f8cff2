import Dtrun.Supervisor.Resumes
import Dtrun.Supervisor.Waits

/-! # When a deadlock is reported

`schedule_next` reports a deadlock when nobody is ready and no stop is expected. That comes to pass
when the last thread that could run parks, or when the last task that could do anything dies; the
timeouts of the parked threads, which would end their waits, are not looked at.
-/
namespace Dtrun
set_option autoImplicit false
open FiniteMap StateExcept Transition Supervisor

variable {k : Answers} {p : Pid} {s s' t v : Supervisor} {regs : Regs} {status : WaitStatus}
  {awaits : List Await} {u : Unit}

/-- Nobody is ready, and no stop is expected but those of parked threads. -/
def Supervisor.Idle (s : Supervisor) : Prop :=
  s.runnable = [] ∧ s.pendingStart = ∅ ∧ s.anyConcurrent = false

instance (s : Supervisor) : Decidable s.Idle := inferInstanceAs (Decidable (_ ∧ _ ∧ _))

/-- The call is a wait that is simulated: its word holds the expected value. -/
def Parks (k : Answers) (p : Pid) (s : Supervisor) (regs : Regs) : Prop :=
  s.isScheduled p = true ∧ 2 ≤ s.scheduledCount ∧ IsWait regs ∧
    readU32 k p regs.rdi = some (regs.rdx.setWidth 32)

instance (k : Answers) (p : Pid) (s : Supervisor) (regs : Regs) : Decidable (Parks k p s regs) :=
  inferInstanceAs (Decidable (_ ∧ _ ∧ _ ∧ _))

theorem interceptFutex_true (hCall : regs.origRax.toInt = SYS_futex)
    (h : interceptFutex k p regs s = .ok true t) :
    Parks k p s regs ∧ Quiet (s.block p regs.rdi) t := by
  have pass {name : String}
      (h : (do modify (·.traceFutex p name "pass"); pure false : SupM Bool) s = .ok true t) :
      False := by
    obtain ⟨_, _, ⟨⟩, ⟨⟩⟩ := bind_ok_iff.mp h
  simp only [interceptFutex, bind_ok_iff, get_apply] at h
  obtain ⟨_, _, ⟨⟩, h⟩ := h
  split at h
  · exact (pass h).elim
  · rename_i hMany
    simp only [not_or, not_not] at hMany
    split at h
    · rename_i hWait
      split at h
      · rename_i hWord
        simp only [bind_ok_iff, modify_apply] at h
        obtain ⟨_, skipped, hSkip, _, _, ⟨⟩, ⟨⟩⟩ := h
        refine ⟨⟨hMany.1, by omega, ⟨hCall, hWait⟩, hWord⟩, ?_⟩
        exact ((skipSyscall_quiet hSkip).block p regs.rdi).trans (.traceJson _ _ _)
      · exact (pass h).elim
    · split at h
      · simp only [bind_ok_iff] at h
        obtain ⟨_, _, _, _, _, _, _, _, _, ⟨⟩⟩ := h
      · split at h
        · split at h
          · exact (pass h).elim
          · simp only [bind_ok_iff] at h
            obtain ⟨_, _, _, _, _, _, _, _, _, ⟨⟩⟩ := h
        · exact (pass h).elim

theorem onSyscallEntry_true (h : onSyscallEntry k p s = .ok true t) : ∃ regs,
    k.getregs p = .ok regs ∧ Parks k p s regs ∧ Quiet (s.block p regs.rdi) t := by
  have answered {x : SupM Unit} (h : (do x; pure false : SupM Bool) s = .ok true t) : False := by
    obtain ⟨_, _, _, ⟨⟩⟩ := bind_ok_iff.mp h
  simp only [onSyscallEntry, bind_ok_iff, ptraceResult_ok] at h
  obtain ⟨regs, _, ⟨hRegs, rfl⟩, h⟩ := h
  split at h
  · exact (answered h).elim
  · split at h
    · exact (answered h).elim
    · split at h
      · exact (answered h).elim
      · split at h
        · rename_i hCall
          exact ⟨regs, hRegs, interceptFutex_true hCall h⟩
        · split at h
          · exact (answered h).elim
          · split at h
            · obtain ⟨_, _, _, h⟩ := bind_ok_iff.mp h
              obtain ⟨_, _, _, ⟨⟩⟩ := bind_ok_iff.mp h
            · exact (answered h).elim

theorem dispatchSyscall_vacates (h : dispatchSyscall k p s = .ok u t)
    (hScheduled : s.isScheduled p = true) (hCurrent : s.current = some p) (hFree : t.current = none) :
    (∃ regs v, k.entry p = some regs ∧ Parks k p s regs ∧ Quiet (s.block p regs.rdi) v ∧
      t = { v with current := none }) ∨ ∃ v, Picks k v t := by
  have kept {v : Supervisor} (hv : v.current = s.current)
      (h : resumeCurrent k p v = .ok u t) : False := by
    rcases resumeCurrent_ok h with ⟨_, _, rfl⟩ | ⟨_, rfl⟩
    · rw [resumed, hv, hCurrent] at hFree
      cases hFree
    · rw [hv, hCurrent] at hFree
      cases hFree
  simp only [dispatchSyscall, bind_ok_iff, ptraceResult_ok, get_apply] at h
  obtain ⟨op, _, ⟨hOp, rfl⟩, _, _, ⟨⟩, h⟩ := h
  rw [if_neg (by simp [hScheduled])] at h
  cases op with
  | entry =>
    simp only [bind_ok_iff] at h
    obtain ⟨b, v, hEntry, h⟩ := h
    cases b with
    | true =>
      simp only [if_true, modify_apply] at h
      cases h
      obtain ⟨regs, hRegs, hParks, hQuiet⟩ := onSyscallEntry_true hEntry
      refine .inl ⟨regs, v, ?_, hParks, hQuiet, rfl⟩
      rw [Answers.entry, hOp, hRegs]
    | false => exact (kept (onSyscallEntry_ok hEntry).frame.1 h).elim
  | exit =>
    simp only [bind_ok_iff] at h
    obtain ⟨_, v, _, h⟩ := h
    rcases yieldCurrent_ok h with ⟨_, hPicks⟩ | ⟨_, hPicks⟩
    · exact .inr ⟨_, hPicks⟩
    · exact .inr ⟨_, hPicks⟩
  | none => exact (kept rfl h).elim
  | seccomp => exact (kept rfl h).elim

theorem Picks.not_deadlock (h : Picks k s t) (hFree : t.current = none) :
    scheduleNext k t ≠ .error .deadlock s' := by
  intro hNext
  obtain ⟨_, hStart, hConcurrent, _⟩ := scheduleNext_deadlock hNext
  cases h with
  | idle _ hExpected =>
    rcases hExpected with hSome | hSome
    · exact Finset.nonempty_iff_ne_empty.mp hSome hStart
    · exact absurd (hSome.symm.trans hConcurrent) (by decide)
  | run =>
    rw [scheduled_frame] at hFree
    cases hFree

/-- The statuses after which the supervisor comes to a deadlock, and the state it finds. -/
inductive Stalls (k : Answers) (awaits : List Await) (s : Supervisor) :
    WaitStatus → Supervisor → Prop
  | parks {p : Pid} {regs : Regs} {v : Supervisor} (hEntry : k.entry p = some regs)
      (hParks : Parks k p s regs) (hAwaits : awaits = []) (hIdle : s.Idle)
      (hQuiet : Quiet (s.block p regs.rdi) v) : Stalls k awaits s (.ptraceSyscall p) v
  | dies {status : WaitStatus} {p : Pid} (hDeath : status.death = some p) (hOther : p ≠ s.pid)
      (hFree : (s.current = some p ∧ s.groupExiting = false) ∨ (s.current = none ∧ awaits = []))
      (hIdle : (s.onThreadExit p (s.current = some p)).Idle) :
      Stalls k awaits s status (s.onThreadExit p (s.current = some p))

/-- The run loop does not wait without a reason: with nobody current, some stop is expected. -/
def Expectant (s : Supervisor) (awaits : List Await) : Prop :=
  awaits = [] → s.current = none → s.pendingStart.Nonempty ∨ s.anyConcurrent = true

theorem Picks.expectant (h : Picks k s t) (awaits : List Await) : Expectant t awaits := by
  intro _ hFree
  cases h with
  | idle _ hExpected => exact hExpected
  | run =>
    rw [scheduled_frame] at hFree
    cases hFree

theorem RunsOn.expectant (h : RunsOn k s t) (awaits : List Await) : Expectant t awaits := by
  rcases h with ⟨_, hPicks⟩ | ⟨hSome, rfl⟩
  · exact hPicks.expectant awaits
  · exact fun _ hFree => absurd hFree hSome

theorem Passed.expectant {awaits' : List Await} (h : Passed k s awaits status (.wait awaits') t) :
    Expectant t awaits' := by
  cases h with
  | next _ hTail => exact hTail.expectant []
  | again => nofun
  | await => nofun
  | attached _ _ hTail =>
    rcases hTail with ⟨rfl, hTail⟩ | ⟨hSome, _⟩
    · exact hTail.expectant []
    · exact fun hNone => absurd hNone hSome

namespace Placed

variable {t : Tracees}

theorem idle_of_deadlock (h : Placed v awaits t) (hNext : scheduleNext k v = .error .deadlock s') :
    v.Idle := by
  obtain ⟨hSkips, hStart, hConcurrent, _⟩ := scheduleNext_deadlock hNext
  refine ⟨List.eq_nil_iff_forall_not_mem.mpr fun q hq => ?_, hStart, hConcurrent⟩
  exact h.not_skips q hq (hSkips q hq)

theorem exists_free (h : Placed s awaits t)
    (hExpected : s.pendingStart.Nonempty ∨ s.anyConcurrent = true) :
    ∃ q, s.registered q = true ∧ q ∉ s.blocked := by
  rcases hExpected with ⟨q, hq⟩ | hSome
  · exact ⟨q, (h.starting q hq).1, (h.starting q hq).2.1⟩
  · obtain ⟨⟨q, thread⟩, hMem, hNot⟩ := List.any_eq_true.mp hSome
    have hLookup : s.threads.get q = some thread := Map.get_eq_some_iff.mpr hMem
    have hKnown : s.registered q = true := by rw [Supervisor.registered, hLookup]; rfl
    refine ⟨q, hKnown, h.parked.not_blocked_of_concurrent ?_⟩
    rw [isScheduled, hLookup]
    simpa using hNot

/-- What leaves a task registered and nobody newly parked does not lead to a deadlock while a stop
is expected. -/
theorem not_stalled (h : Placed s awaits t) {awaits' : List Await} {t' : Tracees}
    (hv : Placed v awaits' t') (hExpected : s.pendingStart.Nonempty ∨ s.anyConcurrent = true)
    (hKnown : ∀ q, s.registered q = true → v.registered q = true) (hBlocked : v.blocked = s.blocked)
    (hFree : v.current = none) : scheduleNext k v ≠ .error .deadlock s' := by
  intro hNext
  obtain ⟨_, _, _, rfl⟩ := scheduleNext_deadlock hNext
  obtain ⟨q, hRegistered, hNot⟩ := h.exists_free hExpected
  obtain ⟨_, hParked, _⟩ := hv.deadlock hFree hNext (hKnown q hRegistered)
  exact hNot (hBlocked ▸ hParked)

end Placed

namespace Placed

variable {t : Tracees} {r : Report}

/-- A status of `run` that leaves nobody current, and nobody to be found. -/
theorem stalls_dispatched (h : Placed s [] t) (hUnique : t.Announced) (hEffects : s.effects = [])
    (hStatus : r.status = .ok status) (hAllows : t.allows r = true) (hExpectant : Expectant s [])
    (hDispatch : dispatch r.answers status s = .ok .next v) (hFree : v.current = none)
    (hNext : scheduleNext r.answers v = .error .deadlock s') :
    ∃ v', Stalls r.answers [] s status v' ∧ v.blocked = v'.blocked := by
  have hDispatched := dispatch_ok hDispatch
  have hv := h.dispatched hUnique hEffects hStatus hAllows hDispatched (by simp)
  have hIdle := hv.idle_of_deadlock hNext
  have quiet (hBlocked : v.blocked = s.blocked) (hSame : v.current = s.current)
      (hAlive : status.death = none) : False := by
    refine h.not_stalled hv (hExpectant rfl (hSame.symm.trans hFree)) (fun q hq => ?_) hBlocked
      hFree hNext
    exact hDispatched.registered_mono hq (by simp [hAlive])
  cases hDeath : status.death with
  | some p =>
    have hOther := hDispatched.death_ne (by simp) hDeath
    cases hDispatched with
    | died hDied hNe hExit =>
      cases hDied.symm.trans hDeath
      rcases dispatchExit_ok hExit with ⟨_, _, hPicks⟩ | ⟨_, rfl⟩
      · exact absurd hNext (hPicks.not_deadlock hFree)
      · rw [onThreadExit_frame] at hFree
        exact ⟨_, .dies hDeath hOther (.inr ⟨hFree, rfl⟩) hIdle, rfl⟩
    | idle hStatus =>
      rcases hStatus with ⟨q, rfl⟩ | rfl
      · cases hDeath
      · cases hDeath
    | _ => cases hDeath
  | none =>
    by_cases hCall : ∃ p, status = .ptraceSyscall p
    · obtain ⟨p, rfl⟩ := hCall
      obtain ⟨hKnown, hCurrent⟩ := h.ran (Tracees.allows_syscall hStatus hAllows)
      obtain ⟨_, _, hHandled, ⟨⟩⟩ := bind_ok_iff.mp hDispatch
      by_cases hScheduled : s.isScheduled p = true
      · rcases dispatchSyscall_vacates hHandled hScheduled (hCurrent hScheduled) hFree with
          ⟨regs, w, hEntry, hParks, hQuiet, rfl⟩ | ⟨w, hPicks⟩
        · obtain ⟨hRunnable, hStart, hConcurrent⟩ := hIdle
          refine ⟨w, .parks hEntry hParks rfl ⟨?_, ?_, ?_⟩ hQuiet, rfl⟩
          · exact hQuiet.runnable.symm.trans hRunnable
          · exact hQuiet.pendingStart.symm.trans hStart
          · have hThreads : w.threads = s.threads := hQuiet.threads
            simpa only [anyConcurrent, hThreads] using hConcurrent
        · exact absurd hNext (hPicks.not_deadlock hFree)
      · exfalso
        cases dispatchSyscall_ok hHandled with
        | concurrent _ hQuiet _ => exact quiet hQuiet.blocked hQuiet.current rfl
        | wait hYes => exact hScheduled hYes
        | entry hYes => exact hScheduled hYes
        | stay hYes => exact hScheduled hYes
        | yield hYes => exact hScheduled hYes
        | pick hYes => exact hScheduled hYes
    · exfalso
      rcases hDispatched.current with hSame | hGivesUp
      · have hQueues := dispatch_queues (k := r.answers) (fun p hp => hCall ⟨p, hp⟩) hDeath s
        rw [hDispatch] at hQueues
        exact quiet hQueues.1 hSame hDeath
      · rcases hGivesUp with ⟨p, rfl, _⟩ | ⟨p, hDied, _⟩
        · exact hCall ⟨p, rfl⟩
        · rw [hDied] at hDeath
          cases hDeath

theorem stalls (h : Placed s awaits t) (hUnique : t.Announced) (hEffects : s.effects = [])
    (hStatus : r.status = .ok status) (hAllows : t.allows r = true)
    (hExpectant : Expectant s awaits)
    (hPass : pass r.answers awaits status s = .error .deadlock s') :
    ∃ v, Stalls r.answers awaits s status v ∧ s'.blocked = v.blocked := by
  obtain ⟨v, hNext, ⟨hSearches, hDispatch⟩ | ⟨rfl, hDispatch, hFree⟩ |
    ⟨a, w, rfl, rfl, hRelease, hResume, hFree⟩⟩ := pass_deadlock hPass
  · obtain ⟨hv, hFree⟩ := h.searched hEffects hStatus hAllows hSearches
    have hIdle := hv.idle_of_deadlock hNext
    obtain ⟨_, _, _, rfl⟩ := scheduleNext_deadlock hNext
    cases hSearches with
    | yield => exact absurd hIdle.1 (by simp [enqueue])
    | @pick p v hScheduled hCurrent hLeft =>
      obtain ⟨_, hNow⟩ := h.ran (Tracees.allows_syscall hStatus hAllows)
      exact absurd (hLeft.current.trans (hNow hScheduled)) hCurrent
    | @died _ p hDeath hCurrent =>
      obtain ⟨hOther, _, hFlag, _⟩ := dispatch_deadlock_death hDeath hDispatch
      have hRecord : s.onThreadExit p (s.current = some p) = s.onThreadExit p true := by
        rw [decide_eq_true hCurrent]
      refine ⟨_, .dies hDeath hOther (.inl ⟨hCurrent, hFlag⟩) ?_, ?_⟩
      · rw [hRecord]
        exact hIdle
      · rw [hRecord]
  · obtain ⟨v', hStalls, hBlocked⟩ := h.stalls_dispatched hUnique hEffects hStatus hAllows
      hExpectant hDispatch hFree hNext
    obtain ⟨_, _, _, rfl⟩ := scheduleNext_deadlock hNext
    exact ⟨v', hStalls, hBlocked⟩
  · exfalso
    have hPhase := Tracees.allows_attach hStatus hAllows
    have hStart : a.child ∈ s.pendingStart := by
      refine h.newborn _ ((h.awaited a List.mem_cons_self).1.resolve_right ?_) hPhase
      simp [hPhase]
    have hThreads := (resumeTask_threads hResume).trans (release_frame hRelease).1
    have hBlocked : v.blocked = s.blocked := by
      have hBase := congrArg Base.blocked (release_base (k := r.answers) (p := a.child)
        { s with pendingStart := s.pendingStart.erase a.child })
      have hBase' := congrArg Base.blocked (resumeTask_base (k := r.answers) (p := a.parent) w)
      rw [hRelease] at hBase
      rw [hResume] at hBase'
      exact hBase'.trans hBase
    refine h.not_stalled (h.returned hEffects hStatus hAllows hRelease hResume)
      (.inl ⟨_, hStart⟩) (fun q hq => ?_) hBlocked hFree hNext
    rwa [Supervisor.registered, hThreads]

end Placed

/-- The last wait of the task names no time at which it returns. -/
def Waits.Untimed (g : Waits) (q : Pid) : Prop := ((g.get q).map fun regs => regs.r10).getD 0 = 0

instance (g : Waits) (q : Pid) : Decidable (g.Untimed q) := inferInstanceAs (Decidable (_ = _))

namespace World

/-- If the call parks the last thread that could run, it names no timeout, and nor does a wait of
those parked before. -/
def UntimedCall (x : World × Waits) (k : Answers) : Option (Pid × Regs) → Prop
  | some (p, regs) => Parks k p x.1.machine.sv regs → x.1.machine.awaits = [] →
      x.1.machine.sv.Idle → ¬ Timed regs ∧ ∀ q ∈ x.1.machine.sv.blocked, x.2.Untimed q
  | none => True

/-- If the last task beside the parked threads dies, none of them is parked with a timeout. -/
def UntimedDeath (x : World × Waits) : Option Pid → Prop
  | some p => p ≠ x.1.machine.sv.pid →
      (x.1.machine.sv.current = some p ∧ x.1.machine.sv.groupExiting = false) ∨
        (x.1.machine.sv.current = none ∧ x.1.machine.awaits = []) →
      (x.1.machine.sv.onThreadExit p (x.1.machine.sv.current = some p)).Idle →
      ∀ q ∈ (x.1.machine.sv.onThreadExit p (x.1.machine.sv.current = some p)).blocked,
        x.2.Untimed q
  | none => True

/-- When the supervisor looks for the next thread in vain, no timed wait is open. -/
def Untimed (x : World × Waits) : Label → Prop
  | .report r => UntimedCall x r.answers r.entry ∧ UntimedDeath x r.death
  | _ => True

instance (x : World × Waits) (k : Answers) : (c : Option (Pid × Regs)) →
    Decidable (UntimedCall x k c)
  | some (p, regs) => inferInstanceAs (Decidable
      (Parks k p x.1.machine.sv regs → _ → _ → ¬ (_ ≠ _) ∧ ∀ q ∈ x.1.machine.sv.blocked, _))
  | none => .isTrue trivial

instance (x : World × Waits) : (d : Option Pid) → Decidable (UntimedDeath x d)
  | some _ => inferInstanceAs (Decidable (_ → _ ∨ _ → _ → ∀ q ∈ _, x.2.Untimed q))
  | none => .isTrue trivial

instance (x : World × Waits) : (l : Label) → Decidable (Untimed x l)
  | .report _ => inferInstanceAs (Decidable (_ ∧ _))
  | .spawn _ _ _ _ | .exec _ => .isTrue trivial

def Patient (x : World × Waits) (l : Label) : Prop := x.1.Unheld l ∧ Untimed x l

instance (x : World × Waits) (l : Label) : Decidable (Patient x l) :=
  inferInstanceAs (Decidable (_ ∧ _))

variable {pid : Pid} {seed : U64} {w : World}

theorem expectant (h : (system pid seed).Reach System.free w) (hOpen : w.machine.result = none) :
    Expectant w.machine.sv w.machine.awaits := by
  refine System.Reach.invariant (I := fun w => w.machine.result = none →
    Expectant w.machine.sv w.machine.awaits) ?_ ?_ h hOpen
  · rintro _ ⟨k, rfl⟩ hOpen
    obtain ⟨_, hPicks⟩ := Machine.start_wait hOpen
    exact hPicks.expectant _
  · intro w l w' _ hExpectant _ hStep hOpen
    cases l with
    | spawn p c thread vm =>
      rw [spawn_machine hStep] at hOpen ⊢
      exact hExpectant hOpen
    | exec p =>
      rw [exec_machine hStep] at hOpen ⊢
      exact hExpectant hOpen
    | report r =>
      obtain ⟨_, _, _, _, _, hPassed⟩ := observe_wait hStep hOpen
      exact hPassed.expectant

theorem untimed_of_stalls {x : World × Waits} {r : Report} (h : Untimed x (.report r))
    (hStatus : r.status = .ok status)
    (hStalls : Stalls r.answers x.1.machine.awaits { x.1.machine.sv with effects := [] } status v) :
    ∀ q ∈ v.blocked, (x.2.note x.1 (.report r)).Untimed q := by
  obtain ⟨hCall, hDeath⟩ := h
  cases hStalls with
  | @parks p regs v hEntry hParks hAwaits hIdle hQuiet =>
    have hReport : r.entry = some (p, regs) := Report.entry_eq_some.mpr ⟨hStatus, hEntry⟩
    rw [hReport] at hCall
    obtain ⟨hOwn, hOthers⟩ := hCall hParks hAwaits hIdle
    have hNote : x.2.note x.1 (.report r) = x.2.insert p regs := by
      simp only [Waits.note, hReport, if_pos hParks.2.2.1]
    intro q hq
    rw [hNote, Waits.Untimed, Map.get_insert]
    split
    · simpa [Timed] using hOwn
    · rename_i hne
      rw [hQuiet.blocked] at hq
      exact hOthers q ((Finset.mem_insert.mp hq).resolve_left hne)
  | @dies _ p hDied hOther hFree hIdle =>
    have hReport : r.death = some p := by simp only [Report.death, hStatus, hDied]
    have hNone : r.entry = none := by
      cases status with
      | exited q code => simp only [Report.entry, hStatus]
      | signaled q sig core => simp only [Report.entry, hStatus]
      | _ => cases hDied
    have hNote : x.2.note x.1 (.report r) = x.2 := by simp only [Waits.note, hNone]
    rw [onThreadExit_effects] at hIdle ⊢
    rw [hNote]
    rw [hReport] at hDeath
    exact hDeath hOther hFree hIdle

/-- In a run of patient steps, `Deadlock` is returned only when every registered task is a scheduled
thread that is parked, and none of them with a timeout. -/
theorem deadlock_untimed {x : World × Waits}
    (h : ((system pid seed).observed Waits.note ∅).Reach Patient x)
    (hResult : x.1.machine.result = some (.error .deadlock)) (p : Pid)
    (hp : x.1.machine.sv.registered p = true) :
    x.1.machine.sv.isScheduled p = true ∧ x.1.machine.sv.At p .parked ∧ x.2.Untimed p := by
  have hWorld : (system pid seed).Reach Unheld x.1 := h.unobserved fun _ _ => And.left
  obtain ⟨hScheduled, hParked⟩ := deadlock_parked hWorld hResult p hp
  refine ⟨hScheduled, hParked, ?_⟩
  suffices hUntimed : ∀ q ∈ x.1.machine.sv.blocked, x.2.Untimed q from hUntimed p hParked.1
  refine System.Reach.invariant (I := fun x : World × Waits =>
    x.1.machine.result = some (.error .deadlock) →
      ∀ q ∈ x.1.machine.sv.blocked, x.2.Untimed q) ?_ ?_ h hResult
  · rintro ⟨_, _⟩ ⟨⟨k, rfl⟩, rfl⟩ hResult q _
    rfl
  · intro x l y hReach hUntimed hOk hStep hResult
    obtain ⟨hNext, hNote⟩ := System.observed_step hStep
    have hBefore : (system pid seed).Reach Unheld x.1 := hReach.unobserved fun _ _ => And.left
    cases l with
    | spawn p c thread vm =>
      have hMachine := spawn_machine hNext
      rw [hMachine] at hResult ⊢
      rw [hNote]
      exact hUntimed hResult
    | exec p =>
      have hMachine := exec_machine hNext
      rw [hMachine] at hResult ⊢
      rw [hNote]
      exact hUntimed hResult
    | report r =>
      obtain ⟨hRunning, hAllows, hMachine, _⟩ := observe_eq_some hNext
      rw [hMachine] at hResult ⊢
      obtain ⟨status, hStatus, hPass⟩ := Machine.step_deadlock hRunning hResult
      have hPlaced : Placed { x.1.machine.sv with effects := [] } x.1.machine.awaits x.1.tracees :=
        (placed hBefore hRunning).congr rfl rfl rfl rfl rfl rfl rfl
      have hExpectant := expectant (hBefore.mono fun _ _ _ => trivial) hRunning
      obtain ⟨v, hStalls, hBlocked⟩ :=
        hPlaced.stalls (announced hBefore) rfl hStatus hAllows hExpectant hPass
      rw [hBlocked, hNote]
      exact untimed_of_stalls hOk.2 hStatus hStalls

/-- The two threads of the init wait for each other, the second one until a time, if it names one. -/
def bothWait (timeout : U64) : List Label :=
  twoThreads ++ [calls 2 { origRax := 202, rdi := 4096, r10 := timeout },
    calls 1 { origRax := 202, rdi := 4096 }]

def failure (w : World) : Option SuperviseError :=
  match w.machine.result with
  | some (.error e) => some e
  | _ => none

theorem result_of_failure {e : SuperviseError} (h : w.failure = some e) :
    w.machine.result = some (.error e) := by
  simp only [failure] at h
  split at h
  · rename_i hResult
    rw [hResult, Option.some.inj h]
  · cases h

theorem deadlock_untimed_both : ∃ x : World × Waits,
    ((system 1 0).observed Waits.note ∅).Reach Patient x ∧
      x.1.machine.result = some (.error .deadlock) ∧
      x.1.machine.sv.isScheduled 2 = true ∧ x.1.machine.sv.At 2 .parked ∧ x.2.Untimed 2 := by
  have hRun : (((system 1 0).observed Waits.note ∅).exec Patient (start 1 0 {}, ∅)
      (bothWait 0)).map (fun x => (x.1.failure, x.1.machine.sv.registered 2)) =
      some (some .deadlock, true) := by decide +kernel
  obtain ⟨x, hExec, hx⟩ := Option.map_eq_some_iff.mp hRun
  obtain ⟨hFailure, hKnown⟩ := Prod.mk.inj hx
  have hInit : ((system 1 0).observed Waits.note ∅).init (start 1 0 {}, ∅) := ⟨⟨{}, rfl⟩, rfl⟩
  have hReach := System.reach_of_exec hInit hExec
  have hResult := result_of_failure hFailure
  exact ⟨x, hReach, hResult, deadlock_untimed hReach hResult 2 hKnown⟩

/-- The wait of the second thread would end by itself. -/
theorem not_deadlock_untimed : ¬ ∀ (pid : Pid) (seed : U64) (x : World × Waits),
    ((system pid seed).observed Waits.note ∅).Reach System.free x →
    x.1.machine.result = some (.error .deadlock) → ∀ p, x.1.machine.sv.registered p = true →
      x.1.machine.sv.isScheduled p = true ∧ x.1.machine.sv.At p .parked ∧ x.2.Untimed p := by
  intro hAll
  have hRun : (((system 1 0).observed Waits.note ∅).exec System.free (start 1 0 {}, ∅)
      (bothWait 8192)).map (fun x => (x.1.failure, x.1.machine.sv.registered 2,
        decide (x.2.Untimed 2))) = some (some .deadlock, true, false) := by decide +kernel
  obtain ⟨x, hExec, hx⟩ := Option.map_eq_some_iff.mp hRun
  simp only [Prod.mk.injEq, decide_eq_false_iff_not] at hx
  obtain ⟨hFailure, hKnown, hTimed⟩ := hx
  have hInit : ((system 1 0).observed Waits.note ∅).init (start 1 0 {}, ∅) := ⟨⟨{}, rfl⟩, rfl⟩
  exact hTimed (hAll 1 0 x (System.reach_of_exec hInit hExec) (result_of_failure hFailure) 2
    hKnown).2.2

end World

end Dtrun
