import Dtrun.Supervisor.Living
import Dtrun.Supervisor.Services

/-! # Who sets the group-exit flag

`group_exiting` stands for the `exit_group` of the init's thread group: with it, the death of the
current thread leaves `current` as it is. As long as no other group exits before the init's does,
the flag means that, and a death of the current thread lets the next one run.
-/
namespace Dtrun
set_option autoImplicit false
open FiniteMap StateExcept Transition Supervisor

variable {k : Answers} {s : Supervisor} {t : Tracees} {p : Pid} {r : Report} {status : WaitStatus}

theorem Tracees.entersExitGroup_iff : Tracees.entersExitGroup r p = true ↔
    ∃ regs, r.answers.entry p = some regs ∧ regs.origRax.toInt = SYS_exit_group := by
  simp only [entersExitGroup, Answers.entry]
  cases r.answers.syscallInfo p with
  | error e => simp
  | ok op =>
    cases r.answers.getregs p with
    | error e => cases op <;> simp
    | ok regs => cases op <;> simp

theorem Tracees.exited_observe {regs : Regs} (hEntry : r.entry = some (p, regs))
    (hCall : regs.origRax.toInt = SYS_exit_group) {x : Task} (hTask : t.task p = some x) :
    x.group ∈ (t.observe r).exited := by
  obtain ⟨hStatus, hRegs⟩ := Report.entry_eq_some.mp hEntry
  have hEnters : entersExitGroup r p = true := entersExitGroup_iff.mpr ⟨regs, hRegs, hCall⟩
  simp [observe, hStatus, hEnters, setPhase, task_update, hTask]

theorem Tracees.exited_mono (t : Tracees) (r : Report) : t.exited ⊆ (t.observe r).exited := by
  intro g hg
  cases hStatus : r.status with
  | error e => simpa [observe, hStatus] using hg
  | ok status =>
    cases status with
    | ptraceSyscall p =>
      simp only [observe, hStatus]
      split
      · exact List.mem_append_right _ (by rwa [setPhase, exited_update])
      · rwa [setPhase, exited_update]
    | ptraceEvent p sig event =>
      have hSame : (t.observe r).exited = t.exited := by
        cases event <;> simp [observe, hStatus, Event.creates, setPhase, exited_update]
      rwa [hSame]
    | stopped p sig =>
      simp only [observe, hStatus]
      split
      · exact hg
      · rwa [setPhase, exited_update]
    | exited p code => simpa [observe, hStatus] using hg
    | signaled p sig core => simpa [observe, hStatus] using hg
    | continued p => simpa [observe, hStatus] using hg
    | stillAlive => simpa [observe, hStatus] using hg

theorem Services.groupExiting_observe {v : Services} (h : (v.observe r).groupExiting = true) :
    v.groupExiting = true ∨
      ∃ p regs, r.entry = some (p, regs) ∧ regs.origRax.toInt = SYS_exit_group := by
  simp only [Services.observe] at h
  split at h
  · rename_i p regs hEntry
    simp only [Services.entered] at h
    split at h
    · exact .inl h
    · split at h
      · rename_i hCall
        exact .inr ⟨p, regs, hEntry, hCall⟩
      · exact .inl h
  · exact .inl h

theorem Services.pid_observe (v : Services) (r : Report) : (v.observe r).pid = v.pid := by
  simp only [Services.observe]
  split
  · simp only [Services.entered]
    split
    · rfl
    · split
      · rfl
      · rfl
  · rfl

theorem resumeThread_schedule : Keeps (fun s : Supervisor => (s.threads, s.current))
    (resumeThread k p) := by
  refine fun s => .get_bind (.set_bind rfl (.bind ?_ fun _ => .modify fun _ => rfl))
  cases k.syscall p with
  | ok u => exact .pure u
  | error e => exact .throw _

/-- Whether or not the loop of `schedule_next` succeeds, it leaves `current` or sets it to a
registered thread of the queue. -/
theorem scheduleLoop_current (queue : List Pid) (s : Supervisor) :
    (final (scheduleLoop k queue s)).current = s.current ∨
      ∃ q ∈ queue, (final (scheduleLoop k queue s)).current = some q ∧
        (final (scheduleLoop k queue s)).registered q = true := by
  induction queue generalizing s with
  | nil =>
    refine .inl ?_
    rw [scheduleLoop, bind_of_ok (get_apply s)]
    split
    · rfl
    · rfl
  | cons tid rest ih =>
    have later (s : Supervisor) : (final (scheduleLoop k rest s)).current = s.current ∨
        ∃ q ∈ tid :: rest, (final (scheduleLoop k rest s)).current = some q ∧
          (final (scheduleLoop k rest s)).registered q = true :=
      (ih s).imp_right (.imp fun _ hNow => ⟨List.mem_cons_of_mem _ hNow.1, hNow.2⟩)
    rw [scheduleLoop, bind_of_ok (modify_apply _ s), bind_of_ok (get_apply _)]
    cases hLookup : s.threads.get tid with
    | none => exact later { s with runnable := rest }
    | some thread =>
      dsimp only
      split
      · exact later { s with runnable := rest }
      · have hRun : runThread k tid thread { s with runnable := rest } =
            resumeThread k tid (({ s with runnable := rest } : Supervisor).scheduled tid thread) :=
          rfl
        have hKept := resumeThread_schedule (k := k) (p := tid)
          (({ s with runnable := rest } : Supervisor).scheduled tid thread)
        rw [scheduled_frame] at hKept
        obtain ⟨hThreads, hCurrent⟩ := Prod.mk.inj hKept
        refine .inr ⟨tid, List.mem_cons_self, ?_⟩
        rw [hRun, scheduled_frame]
        exact ⟨hCurrent, by simp [registered, hThreads, hLookup]⟩

theorem dispatchExit_current (hQueued : s.Queued) (hCurrent : s.current = some p)
    (hFlag : s.groupExiting = false) :
    (final (dispatchExit k p s)).current = none ∨
      ∃ q, (final (dispatchExit k p s)).current = some q ∧
        (final (dispatchExit k p s)).registered q = true ∧ s.Holds q ∧ q ≠ p := by
  have hNow : (s.onThreadExit p true).groupExiting = false := by rw [onThreadExit_frame, hFlag]
  have hRun : dispatchExit k p s =
      scheduleNext k { s.onThreadExit p true with current := none } := by
    have hWas : decide (s.current = some p) = true := by simp [hCurrent]
    rw [dispatchExit, bind_of_ok (get_apply s), bind_of_ok (set_apply _ _),
      bind_of_ok (get_apply _), hWas, if_pos ⟨rfl, by simp [hNow]⟩]
    rfl
  rw [hRun, scheduleNext, bind_of_ok (get_apply _)]
  rcases scheduleLoop_current (k := k) (s.onThreadExit p true).runnable
    { s.onThreadExit p true with current := none } with hNone | ⟨q, hq, hNext, hRegistered⟩
  · exact .inl hNone
  · have hHeld : (s.onThreadExit p true).Holds q := .inl hq
    exact .inr ⟨q, hNext, hRegistered, hHeld.onThreadExit hQueued⟩

/-- Under the flag a death changes nothing but the dead task's entries. -/
theorem dispatchExit_exiting (hFlag : s.groupExiting = true) :
    dispatchExit k p s = .ok () (s.onThreadExit p (s.current = some p)) := by
  have hNow : (s.onThreadExit p (s.current = some p)).groupExiting = true := by
    rw [onThreadExit_frame, hFlag]
  rw [dispatchExit, bind_of_ok (get_apply s), bind_of_ok (set_apply _ _),
    bind_of_ok (get_apply _), if_neg (by simp [hNow])]
  rfl

theorem dispatch_init (hDeath : status.death = some s.pid) :
    ∃ v, dispatch k status s = .ok (.exit status.exitCode) v := by
  cases status with
  | exited p code =>
    cases hDeath
    exact ⟨_, bind_of_ok (get_apply s) |>.trans (by rw [if_pos rfl]; rfl)⟩
  | signaled p sig core =>
    cases hDeath
    exact ⟨_, bind_of_ok (get_apply s) |>.trans (by rw [if_pos rfl]; rfl)⟩
  | _ => cases hDeath

theorem dispatch_of_death (hDeath : status.death = some p) (hOther : p ≠ s.pid) :
    dispatch k status s = (do dispatchExit k p; pure Flow.next : SupM Flow) s := by
  cases status with
  | exited q code =>
    cases hDeath
    rw [dispatch, bind_of_ok (get_apply s), if_neg hOther]
  | signaled q sig core =>
    cases hDeath
    rw [dispatch, bind_of_ok (get_apply s), if_neg hOther]
  | _ => cases hDeath

theorem dispatch_death (hDeath : status.death = some p) (hOther : p ≠ s.pid) :
    final (dispatch k status s) = final (dispatchExit k p s) := by
  rw [dispatch_of_death hDeath hOther]
  exact Keeps.final_bind (f := id) (fun _ => .pure _) s

theorem pass_of_death {flow : Flow} {u : Supervisor} {awaits : List Await}
    (hDeath : status.death = some p) (hDispatch : dispatch k status s = .ok flow u)
    (hTail : awaits = [] → flow = .next → ∃ v, runTail k u = .ok () v) :
    ∃ turn v, pass k awaits status s = .ok turn v := by
  have hStop (c : Pid) : status ≠ .stopped c .SIGSTOP := by
    rintro rfl
    cases hDeath
  cases awaits with
  | nil =>
    cases flow with
    | next =>
      obtain ⟨v, hRun⟩ := hTail rfl rfl
      exact ⟨_, v, (bind_of_ok hDispatch).trans (bind_of_ok hRun)⟩
    | exit code => exact ⟨_, u, bind_of_ok hDispatch⟩
    | await inner => exact ⟨_, u, bind_of_ok hDispatch⟩
  | cons w outer =>
    simp only [pass, awaitPass, if_neg (hStop _)]
    cases flow with
    | next => exact ⟨_, u, bind_of_ok hDispatch⟩
    | exit code => exact ⟨_, u, bind_of_ok hDispatch⟩
    | await inner => exact ⟨_, u, bind_of_ok hDispatch⟩

namespace World

/-- Until the init's thread group exits, no other group calls `exit_group`. -/
def ExitsInOrder (pid : Pid) (w : World) : Label → Prop
  | .report r => match r.entry with
    | some (p, regs) => regs.origRax.toInt = SYS_exit_group →
        (w.tracees.task p).map Task.group = some pid ∨ pid ∈ w.tracees.exited
    | none => True
  | _ => True

instance (pid : Pid) (w : World) : (l : Label) → Decidable (ExitsInOrder pid w l)
  | .spawn _ _ _ _ | .exec _ => .isTrue trivial
  | .report r => by
    simp only [ExitsInOrder]
    split
    · infer_instance
    · exact .isTrue trivial

variable {pid : Pid} {seed : U64} {w : World}

theorem group_exiting (h : (system pid seed).Reach (ExitsInOrder pid) w) :
    w.machine.sv.groupExiting = true → pid ∈ w.tracees.exited := by
  refine System.Reach.invariant
    (I := fun w => w.machine.sv.groupExiting = true → pid ∈ w.tracees.exited) ?_ ?_ h
  · rintro _ ⟨k, rfl⟩ hFlag
    have hServices : (start pid seed k).machine.services = ⟨pid, false, Prng.new seed, 0, []⟩ :=
      Machine.start_services
    have hNot : (start pid seed k).machine.sv.groupExiting = false :=
      congrArg Services.groupExiting hServices
    rw [hNot] at hFlag
    cases hFlag
  · intro w l w' _ hOld hOk hStep hFlag
    cases l with
    | spawn p c thread vm =>
      obtain ⟨x, _, _, _, _, _, rfl⟩ := spawn_eq_some hStep
      exact hOld hFlag
    | exec p =>
      obtain ⟨x, _, _, _, _, rfl⟩ := exec_eq_some hStep
      exact hOld hFlag
    | report r =>
      obtain ⟨hRunning, hAllows, hMachine, hTracees⟩ := observe_eq_some hStep
      rw [hTracees, Tracees.exited_after]
      rw [hMachine] at hFlag
      have hServices : (w.machine.step r).sv.groupExiting =
          (w.machine.services.observe r).groupExiting :=
        congrArg Services.groupExiting (Machine.step_services hRunning)
      rw [hServices] at hFlag
      rcases Services.groupExiting_observe hFlag with hBefore | ⟨p, regs, hEntry, hCall⟩
      · exact Tracees.exited_mono _ _ (hOld hBefore)
      · simp only [ExitsInOrder, hEntry] at hOk
        rcases hOk hCall with hGroup | hBefore
        · obtain ⟨x, hTask, rfl⟩ := Option.map_eq_some_iff.mp hGroup
          exact Tracees.exited_observe hEntry hCall hTask
        · exact Tracees.exited_mono _ _ hBefore

theorem pid_eq {ok : World → Label → Prop} (h : (system pid seed).Reach ok w) :
    w.machine.sv.pid = pid := by
  refine System.Reach.invariant (I := fun w => w.machine.sv.pid = pid) ?_ ?_ h
  · rintro _ ⟨k, rfl⟩
    have hServices : (start pid seed k).machine.services = ⟨pid, false, Prng.new seed, 0, []⟩ :=
      Machine.start_services
    exact congrArg Services.pid hServices
  · intro w l w' _ hOld _ hStep
    cases l with
    | spawn p c thread vm => rwa [spawn_machine hStep]
    | exec p => rwa [exec_machine hStep]
    | report r =>
      obtain ⟨hRunning, _, hMachine, _⟩ := observe_eq_some hStep
      rw [hMachine]
      have hServices : (w.machine.step r).sv.pid = (w.machine.services.observe r).pid :=
        congrArg Services.pid (Machine.step_services hRunning)
      rw [hServices, Services.pid_observe]
      exact hOld

/-- The flag is set by the init's own thread group only; and when the current thread dies before
that, either it was the init, or nobody is current, or a registered thread that lives is. -/
theorem groupExiting_of_init (h : (system pid seed).Reach (ExitsInOrder pid) w) :
    (w.machine.sv.groupExiting = true → pid ∈ w.tracees.exited) ∧
      ∀ r status p v, w.machine.result = none → w.tracees.allows r = true →
        r.status = .ok status → status.death = some p →
        w.machine.sv.current = some p → pid ∉ w.tracees.exited →
        final (dispatch r.answers status { w.machine.sv with effects := [] }) = v →
        (∃ s, dispatch r.answers status { w.machine.sv with effects := [] } =
          .ok (.exit status.exitCode) s) ∨
        v.current = none ∨
        ∃ q, v.current = some q ∧ v.registered q = true ∧ (w.tracees.observe r).phase q ≠ none := by
  refine ⟨group_exiting h, fun r status p v hOpen _ hStatus hDeath hCurrent hNot hLeft => ?_⟩
  by_cases hInit : p = w.machine.sv.pid
  · exact .inl (dispatch_init (hDeath.trans (congrArg some hInit)))
  have hFlag : w.machine.sv.groupExiting = false := by
    by_contra hSet
    exact hNot (group_exiting h (by simpa using hSet))
  have hQueued : Queued { w.machine.sv with effects := [] } :=
    (parked h hOpen).queued.congr rfl rfl
  rw [dispatch_death (s := { w.machine.sv with effects := [] }) hDeath hInit] at hLeft
  rcases dispatchExit_current (k := r.answers) hQueued hCurrent hFlag with
    hNone | ⟨q, hNext, hRegistered, hHeld, hne⟩
  · exact .inr (.inl (hLeft ▸ hNone))
  · refine .inr (.inr ⟨q, hLeft ▸ hNext, hLeft ▸ hRegistered, ?_⟩)
    refine Tracees.phase_observe_ne_none hStatus ?_ (living h hOpen q hHeld)
    rw [hDeath]
    exact fun hEq => hne (Option.some.inj hEq).symm

/-- The init forks process 2 and creates thread 3, which is current. -/
def processAndThread : List Label :=
  [.spawn 1 2 false false, .report (.created 1 .fork 2), .report (.plain (.stopped 2 .SIGSTOP)),
   .report (.enters 1 { origRax := 56, rdi := threadFlags }), .spawn 1 3 true true,
   .report (.created 1 .clone 3), .report (.plain (.stopped 3 .SIGSTOP)), .report (.leaves 1)]

theorem groupExiting_of_init_thread : ∃ w v,
    (system 1 0).exec (ExitsInOrder 1) (start 1 0 {}) processAndThread = some w ∧
      final (dispatch {} (.exited 3 0) { w.machine.sv with effects := [] }) = v ∧
      (w.machine.sv.groupExiting = true → 1 ∈ w.tracees.exited) ∧
      ((∃ s, dispatch {} (.exited 3 0) { w.machine.sv with effects := [] } = .ok (.exit 0) s) ∨
        v.current = none ∨
        ∃ q, v.current = some q ∧ v.registered q = true ∧
          (w.tracees.observe (.plain (.exited 3 0))).phase q ≠ none) := by
  have hRun : ((system 1 0).exec (ExitsInOrder 1) (start 1 0 {}) processAndThread).map (fun w =>
      (w.machine.result.isNone, w.machine.sv.current, w.tracees.exited,
        w.tracees.allows (.plain (.exited 3 0)))) = some (true, some 3, [], true) := by
    decide +kernel
  obtain ⟨w, hExec, hw⟩ := Option.map_eq_some_iff.mp hRun
  simp only [Prod.mk.injEq, Option.isNone_iff_eq_none] at hw
  obtain ⟨hOpen, hCurrent, hExited, hAllows⟩ := hw
  have hReach : (system 1 0).Reach (ExitsInOrder 1) w := System.reach_of_exec ⟨{}, rfl⟩ hExec
  obtain ⟨hFlag, hDies⟩ := groupExiting_of_init hReach
  exact ⟨w, _, hExec, rfl, hFlag, hDies (.plain (.exited 3 0)) _ 3 _ hOpen hAllows rfl rfl hCurrent
    (by simp [hExited]) rfl⟩

/-- When process 2 calls `exit_group`, the flag is set, and then the death of thread 3 leaves
`current` naming it. -/
theorem not_groupExiting_of_init :
    (¬ ∀ (pid : Pid) (seed : U64) (w : World), (system pid seed).Reach System.free w →
      w.machine.sv.groupExiting = true → pid ∈ w.tracees.exited) ∧
    ¬ ∀ (pid : Pid) (seed : U64) (w : World), (system pid seed).Reach System.free w →
      ∀ r status p v, w.machine.result = none → w.tracees.allows r = true →
        r.status = .ok status → status.death = some p →
        w.machine.sv.current = some p → w.machine.sv.isScheduled p = true →
        pid ∉ w.tracees.exited →
        final (dispatch r.answers status { w.machine.sv with effects := [] }) = v →
        (∃ s, dispatch r.answers status { w.machine.sv with effects := [] } =
          .ok (.exit status.exitCode) s) ∨
        v.current = none ∨
        ∃ q, v.current = some q ∧ v.registered q = true ∧
          (w.tracees.observe r).phase q ≠ none := by
  have hRun : ((system 1 0).exec System.free (start 1 0 {})
      (processAndThread ++ [.report (.enters 2 { origRax := 231 })])).map (fun w =>
      ((w.machine.result.isNone, w.machine.sv.current, w.machine.sv.isScheduled 3),
        w.tracees.exited, w.machine.sv.groupExiting,
        w.tracees.allows (.plain (.exited 3 0)))) =
      some ((true, some 3, true), [2], true, true) := by decide +kernel
  obtain ⟨w, hExec, hw⟩ := Option.map_eq_some_iff.mp hRun
  simp only [Prod.mk.injEq, Option.isNone_iff_eq_none] at hw
  obtain ⟨⟨hOpen, hCurrent, hScheduled⟩, hExited, hFlag, hAllows⟩ := hw
  have hReach : (system 1 0).Reach System.free w := System.reach_of_exec ⟨{}, rfl⟩ hExec
  have hNot : (1 : Pid) ∉ w.tracees.exited := by simp [hExited]
  refine ⟨fun hAll => hNot (hAll 1 0 w hReach hFlag), fun hAll => ?_⟩
  have hOther : (3 : Pid) ≠ w.machine.sv.pid := by
    rw [pid_eq hReach]
    decide
  have hExit := dispatchExit_exiting (k := {}) (p := 3)
    (s := { w.machine.sv with effects := [] }) hFlag
  have hDispatch : dispatch {} (.exited 3 0) { w.machine.sv with effects := [] } =
      .ok .next (onThreadExit { w.machine.sv with effects := [] } 3
        (w.machine.sv.current = some 3)) := by
    rw [dispatch, bind_of_ok (get_apply _), if_neg hOther, bind_of_ok hExit]
    rfl
  rcases hAll 1 0 w hReach (.plain (.exited 3 0)) _ 3 _ hOpen hAllows rfl rfl hCurrent hScheduled
    hNot rfl with ⟨s, hEnd⟩ | hNone | ⟨q, hNext, hRegistered, _⟩
  · cases hDispatch.symm.trans hEnd
  · change (final (dispatch {} _ _)).current = none at hNone
    rw [hDispatch, final, onThreadExit_frame, hCurrent] at hNone
    cases hNone
  · change (final (dispatch {} _ _)).current = some q at hNext
    change (final (dispatch {} _ _)).registered q = true at hRegistered
    rw [hDispatch, final, onThreadExit_frame] at hNext hRegistered
    cases hCurrent.symm.trans hNext
    simp [registered] at hRegistered

end World

end Dtrun
