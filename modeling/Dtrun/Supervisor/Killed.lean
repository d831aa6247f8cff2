import Dtrun.Supervisor.Teardown

/-! # When a signal kills the init's thread group

No flag is set then, so the death of a current thread makes the supervisor look for another one, and
all that it can find are threads that are dying themselves. Nothing goes wrong as long as each such
search comes up with nobody while another stop is still expected.
-/
namespace Dtrun
set_option autoImplicit false
open FiniteMap StateExcept Transition Supervisor

variable {k : Answers} {s s' v : Supervisor} {t : Tracees} {p q : Pid} {r : Report}
  {status : WaitStatus} {flow : Flow} {awaits awaits' : List Await}

/-- The attach stop that a call of `await_attach` waits for. -/
def Report.attaches (r : Report) (a : Await) : Bool :=
  match r.status with
  | .ok (.stopped p sig) => p = a.child ∧ sig = .SIGSTOP
  | _ => false

/-- The loop of `run` is back at its end once the report is handled. -/
def Report.goesRound (r : Report) : List Await → Bool
  | [] => true
  | [a] => r.attaches a
  | _ :: _ :: _ => false

namespace Supervisor

/-- A task other than the one reported dead has still to come to a stop. -/
def expectsBesides (s : Supervisor) (dead : Option Pid) : Bool :=
  (∃ p ∈ s.pendingStart, dead ≠ some p) ∨
    s.threads.entries.any fun e => ¬ e.2.scheduled ∧ dead ≠ some e.1

/-- The report makes the supervisor look for the next thread: nobody is current, or the thread that
is current dies outside a group exit. -/
def Searching (s : Supervisor) (awaits : List Await) (r : Report) : Prop :=
  (s.current = none ∧ r.goesRound awaits = true) ∨
    (s.groupExiting = false ∧ ∃ p ∈ r.death, p ≠ s.pid ∧ s.current = some p)

/-- It finds nobody, and is content with that. -/
def Rests (s : Supervisor) (r : Report) : Prop :=
  s.Idles r = true ∧ (∀ p ∈ s.runnable, r.death = some p) ∧ s.expectsBesides r.death = true

instance (s : Supervisor) (awaits : List Await) (r : Report) :
    Decidable (s.Searching awaits r) := inferInstanceAs (Decidable (_ ∨ _))

instance (s : Supervisor) (r : Report) : Decidable (s.Rests r) :=
  inferInstanceAs (Decidable (_ ∧ _ ∧ _))

/-- A stop of the task is expected. -/
def Expected (s : Supervisor) (p : Pid) : Prop :=
  p ∈ s.pendingStart ∨ (s.registered p = true ∧ s.isScheduled p = false)

theorem expected_of_expectsBesides {dead : Option Pid} (h : s.expectsBesides dead = true) :
    ∃ p, dead ≠ some p ∧ s.Expected p := by
  simp only [expectsBesides, Bool.decide_or, Bool.or_eq_true, decide_eq_true_eq,
    List.any_eq_true] at h
  rcases h with ⟨p, hStart, hne⟩ | ⟨e, hMem, hNot, hne⟩
  · exact ⟨p, hne, .inl hStart⟩
  · have hLookup : s.threads.get e.1 = some e.2 := Map.get_eq_some_iff.mpr hMem
    refine ⟨e.1, hne, .inr ⟨by simp [registered, hLookup], ?_⟩⟩
    simpa [isScheduled, hLookup] using hNot

theorem Expected.not_deadlock (h : s.Expected p) : scheduleNext k s ≠ .error .deadlock v := by
  intro hDeadlock
  obtain ⟨_, hStart, hConcurrent, _⟩ := scheduleNext_deadlock hDeadlock
  rcases h with hMem | ⟨hKnown, hNot⟩
  · rw [hStart] at hMem
    cases hMem
  · cases hLookup : s.threads.get p with
    | none => simp [registered, hLookup] at hKnown
    | some thread =>
      have hAny := List.any_eq_false.mp hConcurrent ⟨p, thread⟩ (Map.get_eq_some_iff.mp hLookup)
      simp [isScheduled, hLookup] at hNot
      simp [hNot] at hAny

theorem Expected.dispatched (h : s.Expected p) (hDispatched : Dispatched k s status flow v)
    (hKnown : p ∈ s.pendingStart → s.registered p = true) (hDeath : status.death ≠ some p)
    (hNot : status = .stopped p .SIGSTOP → s.isScheduled p = false) : v.Expected p := by
  have known (hReg : s.registered p = true) (hFree : s.isScheduled p = false) : v.Expected p := by
    rcases hDispatched.lookup p with hSame | hDied | ⟨hFresh, _⟩
    · right
      rw [registered, isScheduled, hSame]
      exact ⟨hReg, hFree⟩
    · exact absurd hDied hDeath
    · rw [hReg] at hFresh
      cases hFresh
  rcases h with hMem | ⟨hReg, hFree⟩
  · by_cases hStop : status = .stopped p .SIGSTOP
    · exact known (hKnown hMem) (hNot hStop)
    · exact .inl (hDispatched.pendingStart hMem hStop hDeath)
  · exact known hReg hFree

/-- The search that a report leads to comes up with nobody. -/
structure Vacant (s : Supervisor) : Prop where
  runnable : s.runnable = []
  expected : ∃ p, s.Expected p

theorem Vacant.not_deadlock (h : s.Vacant) : scheduleNext k s ≠ .error .deadlock v := by
  obtain ⟨p, hp⟩ := h.expected
  exact hp.not_deadlock

theorem Rests.dispatched (h : s.Rests r) (hPlaced : Placed s awaits t)
    (hStatus : r.status = .ok status) (hDispatched : Dispatched r.answers s status flow v)
    (hFlow : ∀ code, flow ≠ .exit code) : v.Vacant := by
  obtain ⟨hIdles, hDead, hExpects⟩ := h
  have hDeath : r.death = status.death := by rw [Report.death, hStatus]
  rw [hDeath] at hDead hExpects
  obtain ⟨p, hne, hExpected⟩ := expected_of_expectsBesides hExpects
  refine ⟨hDispatched.runnable_nil hPlaced.parked.queued hStatus hIdles hDead hFlow, p,
    hExpected.dispatched hDispatched (fun hMem => (hPlaced.starting p hMem).1) hne fun hStop => ?_⟩
  subst hStop
  simpa [Idles, hStatus] using hIdles

theorem Rests.attached {a : Await} {v' : Supervisor} (h : s.Rests r) (hPlaced : Placed s awaits t)
    (hMem : a ∈ awaits) (hStatus : r.status = .ok (.stopped a.child .SIGSTOP))
    (hAllows : t.allows r = true)
    (hRelease : release k a.child { s with pendingStart := s.pendingStart.erase a.child } = .ok () v)
    (hResume : resumeTask k a.parent v = .ok () v') : v'.Vacant := by
  obtain ⟨hIdles, hDead, _⟩ := h
  have hNot : s.isScheduled a.child = false := by simpa [Idles, hStatus] using hIdles
  have hThreads := (resumeTask_threads hResume).trans (release_frame hRelease).1
  constructor
  · rw [resumeTask_runnable hResume, release_runnable hRelease hNot,
      List.eq_nil_iff_forall_not_mem]
    intro q hq
    have hDied := hDead q hq
    simp [Report.death, hStatus, WaitStatus.death] at hDied
  · refine ⟨a.child, .inr ?_⟩
    rw [registered_of_threads hThreads, isScheduled_of_threads hThreads]
    refine ⟨(hPlaced.awaited a hMem).1.resolve_right fun hGone => ?_, hNot⟩
    rw [Tracees.allows_attach hStatus hAllows] at hGone
    cases hGone

end Supervisor

def Report.stop (r : Report) : Option Pid :=
  match r.status with
  | .ok status => status.stop
  | .error _ => none

/-- The init's group is dying of the signal: its tasks come to nothing but their exit, and the init
ends with it. -/
structure Killed (pid : Pid) (sig : Signal) (t : Tracees) (r : Report) : Prop where
  exits : ∀ q ∈ r.stop, t.group q = some pid → r.dying = some q
  ends : r.death = some pid →
    r.status = .ok (.signaled pid sig true) ∨ r.status = .ok (.signaled pid sig false)

/-- What the supervisor must be spared meanwhile. -/
structure Spared (pid : Pid) (s : Supervisor) (awaits : List Await) (t : Tracees) (r : Report) :
    Prop where
  /-- No task of another group passes for a thread of the init. -/
  foreign : ∀ q ∈ r.stop, r.status = .ok (.ptraceSyscall q) → s.isScheduled q = false
  /-- The parent whose child attaches is alive and no thread of the init. -/
  parent : ∀ a ∈ awaits.head?, r.attaches a = true → (t.group a.parent).any (· ≠ pid) = true
  rests : s.Searching awaits r → s.Rests r

instance (pid : Pid) (sig : Signal) (t : Tracees) (r : Report) : Decidable (Killed pid sig t r) :=
  decidable_of_iff (_ ∧ _) ⟨fun h => ⟨h.1, h.2⟩, fun h => ⟨h.exits, h.ends⟩⟩

instance (pid : Pid) (s : Supervisor) (awaits : List Await) (t : Tracees) (r : Report) :
    Decidable (Spared pid s awaits t r) :=
  decidable_of_iff (_ ∧ _ ∧ _) ⟨fun h => ⟨h.1, h.2.1, h.2.2⟩,
    fun h => ⟨h.foreign, h.parent, h.rests⟩⟩

namespace Spared

variable {pid : Pid} {sig : Signal}

theorem not_scheduled (h : Spared pid s awaits t r) (hStatus : r.status = .ok (.ptraceSyscall q)) :
    s.isScheduled q = false := by
  refine h.foreign q ?_ hStatus
  rw [Report.stop, hStatus]
  rfl

theorem vacant (h : Spared pid s awaits t r) (hPlaced : Placed s awaits t)
    (hStatus : r.status = .ok status) (hDispatched : Dispatched r.answers s status flow v)
    (hFlow : ∀ code, flow ≠ .exit code) (hFree : v.current = none)
    (hRound : s.current = none → r.goesRound awaits = true) : v.Vacant := by
  refine (h.rests ?_).dispatched hPlaced hStatus hDispatched hFlow
  rcases hDispatched.current with hSame | ⟨q, rfl, hYes⟩ | ⟨q, hDeath, hCurrent, hFlag⟩
  · have hNone := hSame.symm.trans hFree
    exact .inl ⟨hNone, hRound hNone⟩
  · rw [h.not_scheduled hStatus] at hYes
    cases hYes
  · have hReport : r.death = some q := by rw [Report.death, hStatus]; exact hDeath
    exact .inr ⟨hFlag, q, hReport, hDispatched.death_ne hFlow hDeath, hCurrent⟩

theorem vacant_attached {a : Await} {v' : Supervisor} (h : Spared pid s [a] t r)
    (hPlaced : Placed s [a] t) (hStatus : r.status = .ok (.stopped a.child .SIGSTOP))
    (hAllows : t.allows r = true)
    (hRelease : release k a.child { s with pendingStart := s.pendingStart.erase a.child } = .ok () v)
    (hResume : resumeTask k a.parent v = .ok () v') (hFree : v'.current = none) : v'.Vacant := by
  have hNone : s.current = none := by
    rw [resumeTask_current hResume, (release_frame hRelease).2.2] at hFree
    exact hFree
  refine (h.rests (.inl ⟨hNone, ?_⟩)).attached hPlaced (List.mem_singleton_self a) hStatus hAllows
    hRelease hResume
  simp [Report.goesRound, Report.attaches, hStatus]

theorem runsOn (hTail : RunsOn k v s') (h : v.current = none → v.Vacant) : s' = v := by
  rcases hTail with ⟨hFree, hPicks⟩ | ⟨_, rfl⟩
  · exact hPicks.of_nil (h hFree).runnable
  · rfl

theorem runTail_runs (hGrants : k.Grants) (h : v.current = none → v.Vacant) :
    ∃ u, runTail k v = .ok () u := by
  cases hTail : runTail k v with
  | ok _ u => exact ⟨u, rfl⟩
  | error e u =>
    have hDeadlock : e = .deadlock :=
      runTail_fails (P := fun e => e = .deadlock) (hGrants.errors _) rfl _ _ _ hTail
    rw [hDeadlock, Dtrun.runTail, bind_of_ok (get_apply v)] at hTail
    split at hTail
    · rename_i hFree
      exact absurd hTail (h hFree).not_deadlock
    · cases hTail

theorem dispatchExit_runs (hGrants : k.Grants)
    (h : s.current = some q → s.groupExiting = false →
      ∃ p, ({ s.onThreadExit q true with current := none } : Supervisor).Expected p) :
    ∃ u, dispatchExit k q s = .ok () u := by
  cases hExit : dispatchExit k q s with
  | ok _ u => exact ⟨u, rfl⟩
  | error e u =>
    have hDeadlock : e = .deadlock :=
      dispatchExit_fails (P := fun e => e = .deadlock) (hGrants.errors _) rfl _ _ _ hExit
    rw [hDeadlock] at hExit
    obtain ⟨hCurrent, hFlag, hNext⟩ := dispatchExit_deadlock hExit
    obtain ⟨p, hp⟩ := h hCurrent hFlag
    exact absurd hNext hp.not_deadlock

/-- Whoever is reported dead, `dispatch` gets past it. -/
theorem dispatch_death (h : Spared pid s awaits t r) (hGrants : k.Grants)
    (hStatus : r.status = .ok status) (hDeath : status.death = some q) :
    ∃ flow u, dispatch k status s = .ok flow u := by
  by_cases hInit : q = s.pid
  · obtain ⟨u, hRun⟩ := dispatch_init (k := k) (hInit ▸ hDeath)
    exact ⟨_, u, hRun⟩
  · have hReport : r.death = some q := by rw [Report.death, hStatus]; exact hDeath
    obtain ⟨u, hExit⟩ := dispatchExit_runs (k := k) (s := s) (q := q) hGrants
      fun hCurrent hFlag => by
        obtain ⟨_, _, hExpects⟩ := h.rests (.inr ⟨hFlag, q, hReport, hInit, hCurrent⟩)
        obtain ⟨p, hne, hExpected⟩ := expected_of_expectsBesides hExpects
        have hOther : p ≠ q := fun hEq => hne (hEq ▸ hReport)
        refine ⟨p, hExpected.imp (fun hMem => ?_) fun hTask => ?_⟩
        · rw [onThreadExit_frame]
          exact Finset.mem_erase_of_ne_of_mem hOther hMem
        · obtain ⟨hReg, hNot⟩ := hTask
          simp only [registered, isScheduled] at hReg hNot ⊢
          rw [onThreadExit_frame]
          simp only [Map.get_erase, if_neg hOther]
          exact ⟨hReg, hNot⟩
    exact ⟨.next, u, (dispatch_of_death hDeath hInit).trans (bind_of_ok hExit)⟩

theorem runs_death (h : Spared pid s awaits t r) (hPlaced : Placed s awaits t)
    (hGranted : r.Granted) (hStatus : r.status = .ok status) (hDeath : status.death = some q) :
    ∃ turn u, pass r.answers awaits status s = .ok turn u := by
  obtain ⟨flow, u, hDispatch⟩ := h.dispatch_death hGranted.answers hStatus hDeath
  apply pass_of_death hDeath hDispatch
  rintro rfl rfl
  exact runTail_runs hGranted.answers fun hFree =>
    h.vacant hPlaced hStatus (dispatch_ok hDispatch) (by simp) hFree fun _ => rfl

theorem runs (h : Spared pid s awaits t r) (hPlaced : Placed s awaits t) (hGranted : r.Granted)
    (hStatus : r.status = .ok status) (hAllows : t.allows r = true) :
    ∃ turn u, pass r.answers awaits status s = .ok turn u := by
  cases hDeath : status.death with
  | some q => exact h.runs_death hPlaced hGranted hStatus hDeath
  | none =>
    cases hPass : pass r.answers awaits status s with
    | ok turn u => exact ⟨turn, u, rfl⟩
    | error e u =>
      exfalso
      cases pass_granted hGranted hStatus hAllows hPass
      obtain ⟨v, hNext, ⟨hSearch, _⟩ | ⟨rfl, hDispatch, hFree⟩ |
        ⟨a, v₀, rfl, rfl, hRelease, hResume, hFree⟩⟩ := pass_deadlock hPass
      · cases hSearch with
        | @yield q _ hYes =>
          rw [h.not_scheduled hStatus] at hYes
          cases hYes
        | @pick q _ hYes =>
          rw [h.not_scheduled hStatus] at hYes
          cases hYes
        | died hDied =>
          rw [hDeath] at hDied
          cases hDied
      · have hDispatched := dispatch_ok hDispatch
        exact (h.vacant hPlaced hStatus hDispatched (by simp) hFree fun _ => rfl).not_deadlock hNext
      · exact (h.vacant_attached hPlaced hStatus hAllows hRelease hResume hFree).not_deadlock hNext

theorem current_eq_none (h : Spared pid s awaits t r) (hPlaced : Placed s awaits t)
    (hStatus : r.status = .ok status) (hDispatched : Dispatched r.answers s status flow v)
    (hFlow : ∀ code, flow ≠ .exit code) (hGivesUp : s.GivesUp status) : v.current = none := by
  rcases hGivesUp with ⟨q, rfl, hYes⟩ | ⟨q, hDeath, hCurrent, hFlag⟩
  · rw [h.not_scheduled hStatus] at hYes
    cases hYes
  · have hReport : r.death = some q := by rw [Report.death, hStatus]; exact hDeath
    obtain ⟨hIdles, hDead, _⟩ :=
      h.rests (.inr ⟨hFlag, q, hReport, hDispatched.death_ne hFlow hDeath, hCurrent⟩)
    cases hDispatched with
    | @died _ q' _ hDied _ hExit =>
      cases Option.some.inj (hDied.symm.trans hDeath)
      rcases dispatchExit_ok hExit with ⟨_, _, hPicks⟩ | ⟨hNot, _⟩
      · rw [hPicks.of_nil]
        change (s.onThreadExit q true).runnable = []
        rw [onThreadExit_runnable hPlaced.parked.queued (Idles.clearsNobody hIdles hStatus hDeath),
          List.filter_eq_nil_iff]
        intro p hp
        cases hReport.symm.trans (hDead p hp)
        simp
      · simp [hCurrent, hFlag] at hNot
    | finished => exact absurd rfl (hFlow _)
    | idle hIdle =>
      rcases hIdle with ⟨p, rfl⟩ | rfl
      · cases hDeath
      · cases hDeath
    | _ => cases hDeath

theorem resumes {turn : Turn} (h : Spared pid s awaits t r) (hKilled : Killed pid sig t r)
    (hPlaced : Placed s awaits t) (hEffects : s.effects = []) (hStatus : r.status = .ok status)
    (hAllows : t.allows r = true)
    (hFamily : ∀ p, t.cloned p = some q → t.group q = some pid → t.group p = some pid)
    (hPassed : Passed r.answers s awaits status turn s') (hResumes : s'.Resumes q)
    (hGroup : t.group q = some pid) : r.dying = some q := by
  have stopped {p : Pid} (hStop : status.stop = some p) (hOwn : t.group p = some pid) :
      r.dying = some p := by
    refine hKilled.exits p ?_ hOwn
    rw [Report.stop, hStatus]
    exact hStop
  have dispatched {flow : Flow} {v : Supervisor}
      (hDispatched : Dispatched r.answers s status flow v) (hResumes : v.Resumes q) :
      r.dying = some q := by
    have hLets := hDispatched.letsGo hEffects hResumes
    cases hLets with
    | dying hExit => exact stopped (congrArg WaitStatus.stop hExit) hGroup
    | own hStop _ => exact stopped hStop hGroup
    | @child p sig' event hEvent hCreates hChild _ =>
      subst hEvent
      have hDying := stopped rfl
        (hFamily p (Tracees.allows_creates hStatus hCreates hChild hAllows) hGroup)
      cases event <;> simp [Report.dying, hStatus, Event.creates] at hDying hCreates
    | next hGivesUp hCurrent _ =>
      have hFlow (code : Int) : flow ≠ .exit code := by
        rintro rfl
        cases hDispatched with
        | finished _ hQuiet => exact absurd (hResumes.quiet hQuiet) (Resumes.not_nil hEffects)
        | clone _ _ _ hFlow =>
          rcases hFlow with ⟨_, hNot, _⟩ | ⟨_, hNot, _⟩
          · cases hNot
          · cases hNot
      rw [h.current_eq_none hPlaced hStatus hDispatched hFlow hGivesUp] at hCurrent
      cases hCurrent
  cases hPassed with
  | next hDispatched hTail =>
    rw [runsOn hTail fun hFree =>
      h.vacant hPlaced hStatus hDispatched (by simp) hFree fun _ => rfl] at hResumes
    exact dispatched hDispatched hResumes
  | again _ hDispatched => exact dispatched hDispatched hResumes
  | finish hDispatched => exact dispatched hDispatched hResumes
  | await hDispatched => exact dispatched hDispatched hResumes
  | @attached a outer v v' _ hRelease hResume hTail =>
    have hv' : s' = v' := by
      rcases hTail with ⟨rfl, hTail⟩ | ⟨_, rfl⟩
      · exact runsOn hTail fun hFree =>
          h.vacant_attached hPlaced hStatus hAllows hRelease hResume hFree
      · rfl
    rw [hv'] at hResumes
    rcases hResumes.resumeTask hResume with hv | ⟨rfl, _⟩
    · rcases hv.release hRelease with hOld | ⟨rfl, _⟩
      · exact absurd (hOld.congr rfl) (Resumes.not_nil hEffects)
      · exact stopped rfl hGroup
    · have hOther := h.parent a (by simp) (by simp [Report.attaches, hStatus])
      simp [hGroup] at hOther

end Spared

namespace World

variable {pid : Pid} {seed : U64} {sig : Signal} {w w' : World} {labels : List Label}

/-- What the kernel makes of the signal. -/
def Struck (w : World) (pid : Pid) (sig : Signal) : Label → Prop
  | .report r => Killed pid sig w.tracees r
  | _ => True

def Quiets (w : World) (pid : Pid) : Label → Prop
  | .report r => Spared pid w.machine.sv w.machine.awaits w.tracees r
  | _ => True

instance (pid : Pid) (sig : Signal) (w : World) : (l : Label) → Decidable (w.Struck pid sig l)
  | .spawn _ _ _ _ | .exec _ => .isTrue trivial
  | .report r => inferInstanceAs (Decidable (Killed pid sig w.tracees r))

instance (pid : Pid) (w : World) : (l : Label) → Decidable (w.Quiets pid l)
  | .spawn _ _ _ _ | .exec _ => .isTrue trivial
  | .report r => inferInstanceAs (Decidable (Spared pid _ _ w.tracees r))

/-- The condition on a step once the signal has struck. -/
structure LetsDie (pid : Pid) (sig : Signal) (w : World) (l : Label) : Prop where
  unheld : w.Unheld l
  struck : w.Struck pid sig l
  quiets : w.Quiets pid l
  granted : ∀ r, l = .report r → r.Granted

/-- The threads of the init are let run in their exit stops only, and the supervision ends with the
signal. -/
structure KilledOff (pid : Pid) (sig : Signal) (w : World) : Prop where
  outcome : (w.machine.result = none ∧ w.tracees.phase pid ≠ none) ∨
    w.machine.result = some (.ok (128 + sig.number))
  /-- No task is kept in its exit stop. -/
  passed : w.machine.result = none → ∀ q, w.tracees.phase q ≠ some .exitStop
  resumes : ∀ r w', LetsDie pid sig w (.report r) → w.observe r = some w' →
    ∀ q, w.tracees.group q = some pid → w'.machine.sv.Resumes q → r.dying = some q

/-- A report does not fail the supervisor, and lets no thread of the init run but in its exit
stop. -/
theorem letsDie_report (hReach : (system pid seed).Reach Unheld w)
    (hOk : LetsDie pid sig w (.report r)) (hStep : w.observe r = some w') :
    (w'.machine.result = none ∨ w'.machine.result = some (.ok (128 + sig.number))) ∧
      ∀ q, w.tracees.group q = some pid → w'.machine.sv.Resumes q → r.dying = some q := by
  obtain ⟨hRunning, hAllows, hMachine, _⟩ := observe_eq_some hStep
  have hKilled : Killed pid sig w.tracees r := hOk.struck
  have hGranted := hOk.granted r rfl
  obtain ⟨status, hStatus⟩ := hGranted.status
  have hPlaced : Placed { w.machine.sv with effects := [] } w.machine.awaits w.tracees :=
    (placed hReach hRunning).congr rfl rfl rfl rfl rfl rfl rfl
  have hNow : Spared pid w.machine.sv w.machine.awaits w.tracees r := hOk.quiets
  have hSpared : Spared pid { w.machine.sv with effects := [] } w.machine.awaits w.tracees r :=
    ⟨hNow.foreign, hNow.parent, hNow.rests⟩
  obtain ⟨turn, v, hPass⟩ := hSpared.runs hPlaced hGranted hStatus hAllows
  have hSv : w'.machine.sv = v := by
    rw [hMachine, Machine.step_sv hRunning hStatus, hPass]
    rfl
  constructor
  · have hSettle := Machine.step_settle hRunning hStatus
    rw [hPass] at hSettle
    rw [hMachine]
    cases turn with
    | wait awaits' => exact .inl (by rw [hSettle, Machine.settle])
    | done code =>
      have hDone : (w.machine.step r).result = some (.ok code) := by rw [hSettle, Machine.settle]
      obtain ⟨status', hSame, hDeath, hCode⟩ := Machine.step_done hRunning hDone
      have hEnd : r.death = some pid := by
        rw [Report.death, hSame]
        exact hDeath.trans (congrArg some (pid_eq hReach))
      rw [hDone, hCode]
      rcases hKilled.ends hEnd with hSignal | hSignal
      · cases hSame.symm.trans hSignal
        exact .inr rfl
      · cases hSame.symm.trans hSignal
        exact .inr rfl
  · intro q hGroup hResumes
    rw [hSv] at hResumes
    refine hSpared.resumes hKilled hPlaced rfl hStatus hAllows (fun p hCloned hOwn => ?_)
      (pass_ok hPass) hResumes hGroup
    obtain ⟨hInit, hGroups⟩ := family hReach hRunning hCloned
    exact (hGroups pid hOwn).resolve_left fun hEq => hInit hEq.symm

theorem killed_run (hReach : (system pid seed).Reach Unheld w)
    (hOpen : w.machine.result = none ∨ w.machine.result = some (.ok (128 + sig.number)))
    (hRun : (system pid seed).Run (LetsDie pid sig) w labels w') :
    (system pid seed).Reach Unheld w' ∧
      (w'.machine.result = none ∨ w'.machine.result = some (.ok (128 + sig.number))) := by
  induction hRun with
  | nil w => exact ⟨hReach, hOpen⟩
  | @cons w w₁ w₂ l labels hOk hStep _ ih =>
    refine ih (hReach.step l hOk.unheld hStep) ?_
    cases l with
    | spawn p c thread vm =>
      rw [spawn_machine hStep]
      exact hOpen
    | exec p =>
      rw [exec_machine hStep]
      exact hOpen
    | report r => exact (letsDie_report hReach hOk hStep).1

/-- When a signal strikes the init's group, wherever the supervisor is, and every search for another
thread comes up with nobody, the group is reaped. -/
theorem killed_off (hReach : (system pid seed).Reach Unheld w) (hOpen : w.machine.result = none)
    (hRun : (system pid seed).Run (LetsDie pid sig) w labels w') : KilledOff pid sig w' := by
  obtain ⟨hReach', hEnd⟩ := killed_run hReach (.inl hOpen) hRun
  refine ⟨?_, fun hNone q => lets_exit hReach' hNone q, fun r w'' hOk hStep =>
    (letsDie_report hReach' hOk hStep).2⟩
  rcases hEnd with hNone | hDone
  · exact .inl ⟨hNone, init_lives hReach' hNone⟩
  · exact .inr hDone

def initWaits : List Label :=
  newThread ++ [.report (.leaves 1), .report (.leaves 2), .report ⟨.ok (.ptraceSyscall 1), {
    syscallInfo := fun _ => .ok .entry
    getregs := fun _ => .ok { origRax := 202, rdi := 4096 }
    readMem := fun _ _ n => .ok (List.replicate n 0) }⟩]

def bothDie : List Label :=
  [.report (.plain (.ptraceEvent 2 .SIGTRAP .exit)),
   .report (.plain (.ptraceEvent 1 .SIGTRAP .exit)),
   .report (.plain (.signaled 2 .SIGSEGV true)), .report (.plain (.signaled 1 .SIGSEGV true))]

theorem bothDie_granted : ∀ l ∈ bothDie, ∀ r, l = .report r → r.Granted := by
  intro l hl r hEq
  subst hEq
  simp only [bothDie, List.mem_cons, Label.report.injEq, List.not_mem_nil, or_false] at hl
  rcases hl with rfl | rfl | rfl | rfl
  all_goals exact granted_default

theorem killed_off_waiting : ∃ w w',
    (system 1 0).exec Unheld (start 1 0 {}) (initForks ++ initWaits) = some w ∧
      (system 1 0).Run (LetsDie 1 .SIGSEGV) w bothDie w' ∧
      w'.machine.result.bind Except.toOption = some 139 ∧ KilledOff 1 .SIGSEGV w' := by
  have hRun : ((system 1 0).exec Unheld (start 1 0 {}) (initForks ++ initWaits)).map (fun w =>
      (w.machine.result.isNone, ((system 1 0).exec (fun w l =>
        (w.Unheld l ∧ w.Struck 1 .SIGSEGV l) ∧ w.Quiets 1 l) w bothDie).map fun w' =>
          w'.machine.result.bind Except.toOption)) = some (true, some (some 139)) := by
    decide +kernel
  obtain ⟨w, hExec, hw⟩ := Option.map_eq_some_iff.mp hRun
  simp only [Prod.mk.injEq, Option.isNone_iff_eq_none] at hw
  obtain ⟨hOpen, hThen⟩ := hw
  obtain ⟨w', hExec', hResult⟩ := Option.map_eq_some_iff.mp hThen
  have hReach : (system 1 0).Reach Unheld w := System.reach_of_exec ⟨{}, rfl⟩ hExec
  have hDie : (system 1 0).Run (LetsDie 1 .SIGSEGV) w bothDie w' :=
    (System.run_of_exec_mem hExec' bothDie_granted).mono fun _ _ hOk =>
      ⟨hOk.1.1.1, hOk.1.1.2, hOk.1.2, hOk.2⟩
  exact ⟨w, w', hExec, hDie, hResult, killed_off hReach hOpen hDie⟩

/-- The kernel refuses to let the init go on, which has been let through its exit stop. -/
def initGone (status : WaitStatus) : Label :=
  .report ⟨.ok status, { syscall := fun p => if p = 1 then .error ESRCH else .ok () }⟩

/-- The supervision that the signal strikes after `labels` fails on `deaths`. -/
def FailsOn (labels deaths : List Label) : Prop :=
  ∃ w w', (system 1 0).exec Unheld (start 1 0 {}) labels = some w ∧ w.machine.result = none ∧
    (system 1 0).exec (fun w l => (w.Unheld l ∧ w.Struck 1 .SIGSEGV l) ∧ w.LeaderLast l) w
      deaths = some w' ∧ ¬ KilledOff 1 .SIGSEGV w'

theorem failsOn_of_exec {labels deaths : List Label}
    (h : ((system 1 0).exec Unheld (start 1 0 {}) labels).map (fun w =>
      (w.machine.result.isNone, ((system 1 0).exec (fun w l =>
        (w.Unheld l ∧ w.Struck 1 .SIGSEGV l) ∧ w.LeaderLast l) w deaths).map fun w' =>
          (w'.machine.result.isSome, w'.machine.result.bind Except.toOption))) =
        some (true, some (true, none))) : FailsOn labels deaths := by
  obtain ⟨w, hExec, hw⟩ := Option.map_eq_some_iff.mp h
  simp only [Prod.mk.injEq, Option.isNone_iff_eq_none] at hw
  obtain ⟨hOpen, hThen⟩ := hw
  obtain ⟨w', hExec', hEnd⟩ := Option.map_eq_some_iff.mp hThen
  simp only [Prod.mk.injEq] at hEnd
  obtain ⟨hDone, hResult⟩ := hEnd
  refine ⟨w, w', hExec, hOpen, hExec', fun hOff => ?_⟩
  rcases hOff.outcome with ⟨hNone, _⟩ | hCode
  · rw [hNone] at hDone
    cases hDone
  · rw [hCode] at hResult
    cases hResult

/-- Nobody is left to schedule; the dying init is scheduled; the child of the dying init attaches. -/
theorem not_killed_off : FailsOn initWaits (bothDie.take 3) ∧
    FailsOn (newThread ++ [.report (.leaves 1)])
      (bothDie.take 2 ++ [initGone (.signaled 2 .SIGSEGV true)]) ∧
    FailsOn (initForks.take 2)
      [.report (.plain (.ptraceEvent 1 .SIGTRAP .exit)), initGone (.stopped 3 .SIGSTOP)] := by
  refine ⟨failsOn_of_exec ?_, failsOn_of_exec ?_, failsOn_of_exec ?_⟩
  · decide +kernel
  · decide +kernel
  · decide +kernel

end World

end Dtrun
