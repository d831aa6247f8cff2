import Dtrun.Supervisor.Awaiting
import Dtrun.Supervisor.Exits
import Dtrun.Supervisor.Granted
import Dtrun.Supervisor.Groups
import Dtrun.Supervisor.Idling

/-! # The end of the init's thread group

From the entry of `exit_group` on, `current` names the caller, alive or dead, and the flag keeps a
death from giving it up. So nothing is scheduled any more, whatever the clear-tid wakes put into the
queue, and the tasks that come to their exit stops are let through it.
-/
namespace Dtrun
set_option autoImplicit false
open FiniteMap StateExcept Transition Supervisor

variable {k : Answers} {s s' : Supervisor} {t : Tracees} {p q : Pid} {r : Report}
  {status : WaitStatus} {flow : Flow} {awaits awaits' : List Await}

/-- The caller comes to no stop but its exit stop. -/
def OnlyExits (status : WaitStatus) (p : Pid) : Prop :=
  status.stop = some p → ∃ sig, status = .ptraceEvent p sig .exit

/-- The caller of `exit_group` holds `current`, and no call of `await_attach` is its own. -/
structure Standstill (s : Supervisor) (awaits : List Await) (p : Pid) : Prop where
  current : s.current = some p
  flag : s.groupExiting = true
  parents : ∀ a ∈ awaits, a.parent ≠ p

namespace Standstill

theorem not_givesUp (h : Standstill s awaits p) (hPlaced : Placed s awaits t)
    (hStatus : r.status = .ok status) (hAllows : t.allows r = true) (hExits : OnlyExits status p) :
    ¬ s.GivesUp status := by
  rintro (⟨q, rfl, hYes⟩ | ⟨q, _, _, hFlag⟩)
  · have hCurrent := hPlaced.single q hYes (Tracees.allows_syscall hStatus hAllows)
    cases h.current.symm.trans hCurrent
    obtain ⟨sig, hExit⟩ := hExits rfl
    cases hExit
  · rw [h.flag] at hFlag
    cases hFlag

theorem current_dispatched (h : Standstill s awaits p) (hPlaced : Placed s awaits t)
    (hStatus : r.status = .ok status) (hAllows : t.allows r = true) (hExits : OnlyExits status p)
    (hDispatched : Dispatched k s status flow s') : s'.current = some p := by
  rcases hDispatched.current with hSame | hGivesUp
  · exact hSame.trans h.current
  · exact absurd hGivesUp (h.not_givesUp hPlaced hStatus hAllows hExits)

theorem runsOn_eq (hCurrent : s.current = some p) (hTail : RunsOn k s s') : s' = s := by
  rcases hTail with ⟨hNone, _⟩ | ⟨_, rfl⟩
  · rw [hCurrent] at hNone
    cases hNone
  · rfl

theorem current_attached {w : Await} {v v' : Supervisor}
    (hCurrent : s.current = some p)
    (hRelease : Dtrun.release k w.child
      { s with pendingStart := s.pendingStart.erase w.child } = .ok () v)
    (hResume : Dtrun.resumeTask k w.parent v = .ok () v') : v'.current = some p := by
  have hv := (release_frame hRelease).2.2.trans hCurrent
  rcases resumeTask_ok hResume with ⟨_, rfl, _⟩ | ⟨_, _, rfl⟩
  · exact hv
  · exact hv

theorem passed (h : Standstill s awaits p) (hPlaced : Placed s awaits t)
    (hStatus : r.status = .ok status) (hAllows : t.allows r = true) (hExits : OnlyExits status p)
    (hPassed : Passed k s awaits status (.wait awaits') s') :
    s'.current = some p ∧ ∀ a ∈ awaits', a.parent ≠ p := by
  cases hPassed with
  | next hDispatched hTail =>
    have hv := h.current_dispatched hPlaced hStatus hAllows hExits hDispatched
    rw [runsOn_eq hv hTail]
    exact ⟨hv, fun _ ha => absurd ha List.not_mem_nil⟩
  | again _ hDispatched =>
    exact ⟨h.current_dispatched hPlaced hStatus hAllows hExits hDispatched, h.parents⟩
  | @await _ inner _ _ hDispatched =>
    refine ⟨h.current_dispatched hPlaced hStatus hAllows hExits hDispatched, fun a ha => ?_⟩
    rcases List.mem_cons.mp ha with rfl | ha
    · cases hDispatched with
      | @clone q child sig event v _ _ hEvent _ _ hFlow =>
        rcases hFlow with ⟨_, ⟨⟩, rfl⟩ | ⟨_, ⟨⟩, _⟩
        rintro rfl
        obtain ⟨sig', hExit⟩ := hExits rfl
        cases hExit
        cases hEvent
    · exact h.parents a ha
  | @attached w _ v v' _ hRelease hResume hTail =>
    have hv' := current_attached h.current hRelease hResume
    have hOuter : ∀ a ∈ awaits', a.parent ≠ p := fun a ha => h.parents a (List.mem_cons_of_mem _ ha)
    rcases hTail with ⟨_, hTail⟩ | ⟨_, rfl⟩
    · rw [runsOn_eq hv' hTail]
      exact ⟨hv', hOuter⟩
    · exact ⟨hv', hOuter⟩

theorem resumes_dying {turn : Turn} (h : Standstill s awaits p) (hPlaced : Placed s awaits t)
    (hEffects : s.effects = []) (hStatus : r.status = .ok status) (hAllows : t.allows r = true)
    (hExits : OnlyExits status p) (hPassed : Passed r.answers s awaits status turn s')
    (hResumes : s'.Resumes q) (hScheduled : s'.isScheduled q = true) :
    ∃ sig, status = .ptraceEvent q sig .exit := by
  have dispatched {flow : Flow} {v : Supervisor}
      (hDispatched : Dispatched r.answers s status flow v) (hResumes : v.Resumes q)
      (hScheduled : v.isScheduled q = true) : ∃ sig, status = .ptraceEvent q sig .exit := by
    cases hDispatched.letsGo hEffects hResumes with
    | @dying sig hExit => exact ⟨sig, hExit⟩
    | own hStop hCurrent =>
      rcases hDispatched.lookup q with hSame | hDeath | ⟨hFresh, p', sig, event, hEvent, hCreates, _⟩
      · rw [Supervisor.isScheduled, hSame] at hScheduled
        cases h.current.symm.trans (hCurrent hScheduled)
        exact hExits hStop
      · exact absurd hDeath (Tracees.death_ne_stop hStop)
      · subst hEvent
        cases hStop
        have hExit : event ≠ .exit := by
          rintro rfl
          cases hCreates
        have hKnown := (hPlaced.ran (Tracees.allows_event hStatus hExit hAllows)).1
        rw [hFresh] at hKnown
        cases hKnown
    | child _ _ _ hNot =>
      rw [hNot] at hScheduled
      cases hScheduled
    | next hGivesUp => exact absurd hGivesUp (h.not_givesUp hPlaced hStatus hAllows hExits)
  cases hPassed with
  | next hDispatched hTail =>
    have hv := h.current_dispatched hPlaced hStatus hAllows hExits hDispatched
    rw [runsOn_eq hv hTail] at hResumes hScheduled
    exact dispatched hDispatched hResumes hScheduled
  | again _ hDispatched => exact dispatched hDispatched hResumes hScheduled
  | finish hDispatched => exact dispatched hDispatched hResumes hScheduled
  | await hDispatched => exact dispatched hDispatched hResumes hScheduled
  | @attached w outer v v' _ hRelease hResume hTail =>
    have hv' : s' = v' := by
      rcases hTail with ⟨_, hTail⟩ | ⟨_, rfl⟩
      · exact runsOn_eq (current_attached h.current hRelease hResume) hTail
      · rfl
    rw [hv'] at hResumes hScheduled
    rw [isScheduled_of_threads (resumeTask_threads hResume)] at hScheduled
    rcases hResumes.resumeTask hResume with hv | ⟨rfl, hCurrent⟩
    · rcases hv.release hRelease with hOld | ⟨rfl, hNot⟩
      · exact absurd (hOld.congr rfl) (Resumes.not_nil hEffects)
      · rw [isScheduled_of_threads (release_frame hRelease).1] at hScheduled
        exact absurd hScheduled (by simpa using hNot)
    · have hNow := hCurrent hScheduled
      rw [(release_frame hRelease).2.2] at hNow
      cases h.current.symm.trans hNow
      exact absurd rfl (h.parents w List.mem_cons_self)

theorem runTail_ok (hCurrent : s.current = some p) : runTail k s = .ok () s := by
  rw [runTail, bind_of_ok (get_apply s), if_neg (by simp [hCurrent])]
  rfl

theorem runs_death (h : Standstill s awaits p) (hDeath : status.death = some q) :
    ∃ turn v, pass k awaits status s = .ok turn v := by
  by_cases hInit : q = s.pid
  · obtain ⟨v, hRun⟩ := dispatch_init (k := k) (hInit ▸ hDeath)
    apply pass_of_death hDeath hRun
    intro _ hNext
    cases hNext
  · have hLeft : (s.onThreadExit q (s.current = some q)).current = some p := by
      rw [onThreadExit_frame]
      exact h.current
    have hExit := dispatchExit_exiting (k := k) (p := q) h.flag
    apply pass_of_death hDeath ((dispatch_of_death hDeath hInit).trans (bind_of_ok hExit))
    intro _ _
    exact ⟨_, runTail_ok hLeft⟩

/-- Nothing is looked for in the queue, so a pass fails only where the kernel refuses a request. -/
theorem runs (h : Standstill s awaits p) (hPlaced : Placed s awaits t) (hGranted : r.Granted)
    (hStatus : r.status = .ok status) (hAllows : t.allows r = true) (hExits : OnlyExits status p) :
    ∃ turn v, pass r.answers awaits status s = .ok turn v := by
  cases hDeath : status.death with
  | some q => exact h.runs_death hDeath
  | none =>
    cases hPass : pass r.answers awaits status s with
    | ok turn v => exact ⟨turn, v, rfl⟩
    | error e v =>
      exfalso
      cases pass_granted hGranted hStatus hAllows hPass
      have hNot := h.not_givesUp hPlaced hStatus hAllows hExits
      obtain ⟨u, _, ⟨hSearch, _⟩ | ⟨_, hDispatch, hFree⟩ |
        ⟨w, v₀, rfl, _, hRelease, hResume, hFree⟩⟩ := pass_deadlock hPass
      · cases hSearch with
        | yield hYes => exact hNot (.inl ⟨_, rfl, hYes⟩)
        | pick hYes => exact hNot (.inl ⟨_, rfl, hYes⟩)
        | died hDied =>
          rw [hDeath] at hDied
          cases hDied
      · rw [h.current_dispatched hPlaced hStatus hAllows hExits (dispatch_ok hDispatch)] at hFree
        cases hFree
      · rw [current_attached h.current hRelease hResume] at hFree
        cases hFree

end Standstill

/-! ## The exit stop -/

theorem Tracees.exitStop_applyAll {effects : List Effect}
    (h : (t.applyAll effects).phase q = some .exitStop) :
    t.phase q = some .exitStop ∧ ∀ sig, Effect.resume q sig ∉ effects := by
  induction effects generalizing t with
  | nil => exact ⟨h, fun _ => List.not_mem_nil⟩
  | cons e rest ih =>
    obtain ⟨hNow, hRest⟩ := ih (t := t.apply e) h
    cases e with
    | resume p sig =>
      change (t.resume p).phase q = _ at hNow
      have hne : q ≠ p := by
        rintro rfl
        rw [phase_resume, if_pos rfl] at hNow
        cases hPhase : t.phase q with
        | none => simp [hPhase] at hNow
        | some x => cases x <;> simp [hPhase, Phase.resume] at hNow
      rw [resume_phase_ne hne] at hNow
      refine ⟨hNow, fun sig' hMem => ?_⟩
      rcases List.mem_cons.mp hMem with hEq | hMem
      · cases hEq
        exact hne rfl
      · exact hRest sig' hMem
    | setregs p regs =>
      refine ⟨hNow, fun sig hMem => hRest sig ?_⟩
      simpa using hMem
    | write p addr data =>
      refine ⟨hNow, fun sig hMem => hRest sig ?_⟩
      simpa using hMem

theorem Tracees.exitStop_after (h : (t.after s).phase q = some .exitStop) :
    t.phase q = some .exitStop ∧ ¬ s.Resumes q := by
  obtain ⟨hNow, hNot⟩ := exitStop_applyAll h
  exact ⟨hNow, fun ⟨sig, hMem⟩ => hNot sig hMem⟩

theorem Tracees.exitStop_observe (hStatus : r.status = .ok status) (hAllows : t.allows r = true)
    (h : (t.observe r).phase q = some .exitStop) :
    t.phase q = some .exitStop ∨ ∃ sig, status = .ptraceEvent q sig .exit := by
  rcases dying_of_observe (.inl h) with hDying | ⟨sig, hExit⟩
  · rcases phase_observe hStatus q with hSame | ⟨hAbout, _⟩
    · exact .inl (hSame.symm.trans h)
    · rcases hAbout with hStop | hDeath
      · rcases allows_stop_phase hStatus hStop hAllows with hExit | hRan | hBorn
        · exact .inr hExit
        · rcases hDying with hDying | hDying
          · exact .inl hDying
          · rw [hRan] at hDying
            cases hDying
        · rcases hDying with hDying | hDying
          · exact .inl hDying
          · rw [hBorn] at hDying
            cases hDying
      · rw [phase_observe_death hStatus hDeath, if_pos rfl] at h
        cases h
  · rw [hStatus] at hExit
    exact .inr ⟨sig, Except.ok.inj hExit⟩

theorem Passed.dying_resumes {sig : Signal}
    (h : Passed k s awaits (.ptraceEvent q sig .exit) (.wait awaits') s') : s'.Resumes q := by
  have dispatched {flow : Flow} {v : Supervisor}
      (hDispatched : Dispatched k s (.ptraceEvent q sig .exit) flow v) : v.Resumes q := by
    cases hDispatched with
    | clone hEvent => cases hEvent
    | dying => exact ⟨_, List.mem_append_right _ (List.mem_singleton_self _)⟩
    | event _ hExit => exact absurd rfl hExit
    | finished hDeath => cases hDeath
    | died hDeath => cases hDeath
    | idle hIdle =>
      rcases hIdle with ⟨p, hEq⟩ | hEq
      · cases hEq
      · cases hEq
  cases h with
  | next hDispatched hTail => exact (dispatched hDispatched).runsOn hTail
  | again _ hDispatched => exact dispatched hDispatched
  | await hDispatched => exact dispatched hDispatched

/-! ## The call -/

theorem dispatchSyscall_exitGroup {regs : Regs} (hEntry : k.entry p = some regs)
    (hCall : regs.origRax.toInt = SYS_exit_group) (hYes : s.isScheduled p = true)
    (hCurrent : s.current = some p) (hOk : k.syscall p = .ok ()) :
    dispatchSyscall k p s = .ok ()
      ((({ s with groupExiting := true } : Supervisor).traceSyscall SYS_exit_group "pass").resumed
        p) := by
  simp only [Answers.entry] at hEntry
  split at hEntry
  · rename_i regs' hInfo hRegs
    cases hEntry
    have hRun : onSyscallEntry k p s = .ok false
        (({ s with groupExiting := true } : Supervisor).traceSyscall SYS_exit_group "pass") := by
      rw [onSyscallEntry, hRegs]
      simp only [ptraceResult, pure_bind, hCall]
      rfl
    rw [dispatchSyscall, hInfo]
    simp only [ptraceResult, pure_bind]
    rw [bind_of_ok (get_apply s), if_neg (by simp [hYes])]
    refine (bind_of_ok hRun).trans ?_
    simp only [Bool.false_eq_true, if_false]
    have hNow : (({ s with groupExiting := true } : Supervisor).traceSyscall SYS_exit_group
        "pass").current = some p := hCurrent
    rw [resumeCurrent, bind_of_ok (get_apply _), if_pos hNow]
    exact resumeThread_ok.mpr ⟨hOk, rfl⟩
  · cases hEntry

theorem pass_exitGroup {regs : Regs} (awaits : List Await) (hEntry : k.entry p = some regs)
    (hCall : regs.origRax.toInt = SYS_exit_group) (hYes : s.isScheduled p = true)
    (hCurrent : s.current = some p) (hOk : k.syscall p = .ok ()) :
    pass k awaits (.ptraceSyscall p) s = .ok (.wait awaits)
      ((({ s with groupExiting := true } : Supervisor).traceSyscall SYS_exit_group "pass").resumed
        p) := by
  have hRun := dispatchSyscall_exitGroup hEntry hCall hYes hCurrent hOk
  have hDispatch : dispatch k (.ptraceSyscall p) s = .ok .next _ := bind_of_ok hRun
  cases awaits with
  | nil => exact (bind_of_ok hDispatch).trans (bind_of_ok (Standstill.runTail_ok hCurrent))
  | cons w outer =>
    simp only [pass, awaitPass, reduceCtorEq, if_false]
    exact bind_of_ok hDispatch

/-- Who called `exit_group` with what, and what was on record then. -/
structure ExitGroup where
  caller : Pid
  vtid : Nat
  code : Int
  exits : List Value

/-- The first call of `exit_group` by a thread of the init's group. The kernel keeps the low eight
bits of the status. -/
def ExitGroup.note (pid : Pid) : Option ExitGroup → World → Label → Option ExitGroup
  | none, w, .report r => match r.entry with
    | some (p, regs) =>
      if regs.origRax.toInt = SYS_exit_group ∧ w.tracees.group p = some pid then
        some {
          caller := p
          vtid := ((w.machine.sv.threads.get p).map Thread.vtid).getD 0
          code := ((regs.rdi.setWidth 8).toNat : Int)
          exits := w.machine.sv.exits }
      else none
    | none => none
  | called, _, _ => called

theorem ExitGroup.note_some {pid : Pid} (e : ExitGroup) (w : World) (l : Label) :
    note pid (some e) w l = some e := rfl

theorem ExitGroup.note_eq_some {pid : Pid} {w : World} {l : Label} {e : ExitGroup}
    (h : note pid none w l = some e) : ∃ r regs, l = .report r ∧ r.entry = some (e.caller, regs) ∧
      regs.origRax.toInt = SYS_exit_group ∧
      e.vtid = ((w.machine.sv.threads.get e.caller).map Thread.vtid).getD 0 ∧
      e.exits = w.machine.sv.exits := by
  cases l with
  | spawn p c thread vm => cases h
  | exec p => cases h
  | report r =>
    simp only [note] at h
    split at h
    · rename_i p regs hEntry
      split at h
      · rename_i hCall
        cases h
        exact ⟨r, regs, rfl, hEntry, hCall.1, rfl, rfl⟩
      · cases h
    · cases h

/-- The exit records since the call: none, or that of its caller. -/
def Supervisor.OneExit (s : Supervisor) (e : ExitGroup) : Prop :=
  s.exits = e.exits ∨ s.exits = e.exits ++ [.num e.vtid]

namespace World

def exitGroupSystem (pid : Pid) (seed : U64) : System (World × Option ExitGroup) Label :=
  (system pid seed).observed (ExitGroup.note pid) none

/-- What the kernel makes of the call: its caller comes to nothing but its exit, and the init ends
with the status of the call. -/
def Obeyed (pid : Pid) (x : World × Option ExitGroup) : Label → Prop
  | .report r => match x.2, r.status with
    | some e, .ok status => (status.stop = some e.caller → r.dying = some e.caller) ∧
        (status.death = some pid → status = .exited pid e.code)
    | _, _ => True
  | _ => True

instance (pid : Pid) : (x : World × Option ExitGroup) → (l : Label) → Decidable (Obeyed pid x l)
  | _, .spawn _ _ _ _ | _, .exec _ => .isTrue trivial
  | (_, none), .report _ | (_, some _), .report ⟨.error _, _⟩ => .isTrue trivial
  | (_, some _), .report ⟨.ok _, _⟩ => inferInstanceAs (Decidable (_ ∧ _))

/-- The caller of `exit_group` is one of the threads that the supervisor schedules. -/
def CallerScheduled (pid : Pid) (x : World × Option ExitGroup) (l : Label) : Prop :=
  x.2 = none → (ExitGroup.note pid x.2 x.1 l).all (fun e => x.1.machine.sv.isScheduled e.caller) =
    true

instance (pid : Pid) (x : World × Option ExitGroup) (l : Label) :
    Decidable (CallerScheduled pid x l) := inferInstanceAs (Decidable (_ → _))

/-- From the call on the kernel refuses nothing. -/
def GrantedAfter (pid : Pid) (x : World × Option ExitGroup) : Label → Prop
  | .report r => (ExitGroup.note pid x.2 x.1 (.report r)).isSome = true → r.Granted
  | _ => True

/-- The condition on a step. -/
structure TearsDown (pid : Pid) (x : World × Option ExitGroup) (l : Label) : Prop where
  obeyed : Obeyed pid x l
  unheld : x.1.Unheld l
  scheduled : CallerScheduled pid x l
  granted : GrantedAfter pid x l

/-- The threads that are let run are on their way out, and the supervision ends with the status of
the call. -/
structure TornDown (pid : Pid) (x : World × Option ExitGroup) (e : ExitGroup) : Prop where
  outcome : (x.1.machine.result = none ∧ x.1.tracees.phase pid ≠ none) ∨
    x.1.machine.result = some (.ok e.code)
  records : x.1.machine.sv.OneExit e
  /-- No task is kept in its exit stop. -/
  passed : x.1.machine.result = none → ∀ q, x.1.tracees.phase q ≠ some .exitStop
  resumes : ∀ r w, TearsDown pid x (.report r) → x.1.observe r = some w →
    ∀ q, w.machine.sv.Resumes q → w.machine.sv.isScheduled q = true → r.dying = some q

variable {pid : Pid} {seed : U64} {w : World}

/-- Whoever comes to the exit stop is let through it at once. -/
theorem lets_exit {ok : World → Label → Prop} (h : (system pid seed).Reach ok w)
    (hOpen : w.machine.result = none) (q : Pid) : w.tracees.phase q ≠ some .exitStop := by
  refine System.Reach.invariant (I := fun w => w.machine.result = none →
    w.tracees.phase q ≠ some .exitStop) ?_ ?_ h hOpen
  · rintro _ ⟨k, rfl⟩ _ hNow
    have hBefore := (Tracees.exitStop_after hNow).1
    simp only [Tracees.phase, Tracees.task, alone, Map.get_singleton] at hBefore
    split at hBefore
    · cases hBefore
    · cases hBefore
  · intro w l w' _ hNone _ hStep hOpen
    cases l with
    | spawn p c thread vm =>
      rw [spawn_machine hStep] at hOpen
      rw [spawn_phase hStep]
      split
      · simp
      · exact hNone hOpen
    | exec p =>
      rw [exec_machine hStep] at hOpen
      rw [exec_phase hStep]
      exact hNone hOpen
    | report r =>
      obtain ⟨status, hRunning, hAllows, hStatus, hTracees, hPassed⟩ := observe_wait hStep hOpen
      rw [hTracees]
      intro hNow
      obtain ⟨hBefore, hNot⟩ := Tracees.exitStop_after hNow
      rcases Tracees.exitStop_observe hStatus hAllows hBefore with hOld | ⟨sig, rfl⟩
      · exact hNone hRunning hOld
      · exact hNot hPassed.dying_resumes

/-! ### From the call on -/

/-- What is on record of the caller's exit, which is recorded once it is gone. -/
def Recording (s : Supervisor) (e : ExitGroup) : Prop :=
  (s.exits = e.exits ∧ ∀ v ∈ s.exitOf e.caller, v = .num e.vtid) ∨
    (s.exits = e.exits ++ [.num e.vtid] ∧ s.registered e.caller = false)

theorem Recording.oneExit {e : ExitGroup} (h : Recording s e) : s.OneExit e := by
  rcases h with ⟨hExits, _⟩ | ⟨hExits, _⟩
  · exact .inl hExits
  · exact .inr hExits

theorem Recording.append {e : ExitGroup} (h : Recording s e) :
    s.exits ++ s.exitOf e.caller = e.exits ∨
      s.exits ++ s.exitOf e.caller = e.exits ++ [.num e.vtid] := by
  rcases h with ⟨hExits, hVtid⟩ | ⟨hExits, hGone⟩
  · rw [hExits]
    rw [exitOf] at hVtid ⊢
    cases hLookup : s.threads.get e.caller with
    | none => exact .inl (by simp)
    | some thread =>
      rw [hLookup] at hVtid
      refine .inr ?_
      rw [← hVtid (.num thread.vtid) (by simp)]
      rfl
  · have hNone : s.exitOf e.caller = [] := by
      simp only [registered, Option.isSome_eq_false_iff, Option.isNone_iff_eq_none] at hGone
      simp [exitOf, hGone]
    rw [hNone, List.append_nil]
    exact .inr hExits

end World

theorem Services.groupExiting_mono {v : Services} (r : Report) (h : v.groupExiting = true) :
    (v.observe r).groupExiting = true := by
  simp only [Services.observe]
  split
  · simp only [Services.entered]
    split
    · exact h
    · split
      · rfl
      · exact h
  · exact h

namespace World

theorem Recording.passed {e : ExitGroup} (h : Recording s e) (hPlaced : Placed s awaits t)
    (hStatus : r.status = .ok status) (hAllows : t.allows r = true)
    (hCurrent : s.current = some e.caller)
    (hPassed : Passed r.answers s awaits status (.wait awaits') s')
    (hRecords : s'.exits = s.exits ++ match status.death with
      | some p => if p ≠ s.pid ∧ s.current = some p then s.exitOf p else []
      | none => []) : Recording s' e := by
  have kept (hExits : s'.exits = s.exits)
      (hLookup : s'.threads.get e.caller = s.threads.get e.caller) : Recording s' e := by
    rw [Recording, exitOf, registered, hLookup, hExits]
    exact h
  by_cases hDeath : status.death = some e.caller
  · have hOther := hPassed.death_ne hDeath
    simp only [hDeath, hCurrent, hOther, ne_eq, not_false_eq_true, and_self, if_true] at hRecords
    have hGone := hPassed.unregistered hDeath
    rcases h.append with hNone | hOne
    · refine .inl ⟨hRecords.trans hNone, fun v hv => ?_⟩
      simp only [registered, Option.isSome_eq_false_iff, Option.isNone_iff_eq_none] at hGone
      simp [exitOf, hGone] at hv
    · exact .inr ⟨hRecords.trans hOne, hGone⟩
  · have hExits : s'.exits = s.exits := by
      rw [hRecords]
      split
      · rename_i p hDied
        have hne : ¬ (p ≠ s.pid ∧ s.current = some p) := by
          rintro ⟨_, hNow⟩
          cases hCurrent.symm.trans hNow
          exact hDeath hDied
        rw [if_neg hne, List.append_nil]
      · rw [List.append_nil]
    rcases hPassed.lookup e.caller with hSame | hDied | ⟨_, p, sig, event, hEvent, hCreates, hChild⟩
    · exact kept hExits hSame
    · exact absurd hDied hDeath
    · subst hEvent
      exact absurd hCurrent
        (hPlaced.expected p _ (Tracees.allows_creates hStatus hCreates hChild hAllows)).2

/-- What holds between the call and the end. -/
structure Tearing (m : Machine) (e : ExitGroup) : Prop where
  standstill : Standstill m.sv m.awaits e.caller
  recording : Recording m.sv e

variable {pid : Pid} {seed : U64} {w : World} {e : ExitGroup}

theorem Obeyed.onlyExits (h : Obeyed pid (w, some e) (.report r)) (hStatus : r.status = .ok status) :
    OnlyExits status e.caller := by
  intro hStop
  simp only [Obeyed, hStatus] at h
  have hDying := h.1 hStop
  simp only [Report.dying, hStatus] at hDying
  split at hDying
  · rename_i sig hEvent
    cases hDying
    exact ⟨_, Except.ok.inj hEvent⟩
  · cases hDying

theorem tearing_call (hReach : (system pid seed).Reach Unheld w) (hOpen : w.machine.result = none)
    (hAllows : w.tracees.allows r = true) (hGranted : r.Granted)
    (hScheduled : w.machine.sv.isScheduled e.caller = true)
    (hCalled : ExitGroup.note pid none w (.report r) = some e) :
    (w.machine.step r).result = none ∧ Tearing (w.machine.step r) e := by
  obtain ⟨r, regs, ⟨⟩, hEntry, hCall, hVtid, hExits⟩ := ExitGroup.note_eq_some hCalled
  obtain ⟨hStatus, hRegs⟩ := Report.entry_eq_some.mp hEntry
  have hRan := Tracees.allows_syscall hStatus hAllows
  have hCurrent := (placed hReach hOpen).single _ hScheduled hRan
  have hPass (awaits : List Await) := pass_exitGroup (s := { w.machine.sv with effects := [] })
    (k := r.answers) (p := e.caller) awaits hRegs hCall hScheduled hCurrent
    (hGranted.answers.syscall _)
  rw [Machine.step_settle hOpen hStatus, hPass]
  refine ⟨rfl, ⟨⟨hCurrent, rfl, fun a ha hEq => ?_⟩, .inl ⟨?_, fun v hv => ?_⟩⟩⟩
  · exact ((awaiting hReach hOpen).still a ha).1 (hEq ▸ hRan)
  · rw [hExits]
    exact exits_follows.overlooks.traceSyscall _ _ _
  · have hOld : v ∈ w.machine.sv.exitOf e.caller := hv
    rw [exitOf] at hOld
    cases hLookup : w.machine.sv.threads.get e.caller with
    | none =>
      rw [hLookup] at hOld
      cases hOld
    | some thread =>
      rw [hLookup] at hOld hVtid
      rw [hVtid]
      simpa using hOld

/-- A step after the call: the supervision goes on or ends with the status of the call. -/
theorem tearing_step (hReach : (system pid seed).Reach Unheld w) (h : Tearing w.machine e)
    (hOpen : w.machine.result = none) (hAllows : w.tracees.allows r = true)
    (hGranted : r.Granted) (hObeyed : Obeyed pid (w, some e) (.report r)) :
    ((w.machine.step r).result = none ∧ Tearing (w.machine.step r) e) ∨
      ((w.machine.step r).result = some (.ok e.code) ∧ (w.machine.step r).sv.OneExit e) := by
  obtain ⟨status, hStatus⟩ := hGranted.status
  have hExits := hObeyed.onlyExits hStatus
  have hPlaced : Placed { w.machine.sv with effects := [] } w.machine.awaits w.tracees :=
    (placed hReach hOpen).congr rfl rfl rfl rfl rfl rfl rfl
  have hStand : Standstill { w.machine.sv with effects := [] } w.machine.awaits e.caller :=
    ⟨h.standstill.current, h.standstill.flag, h.standstill.parents⟩
  obtain ⟨turn, v, hPass⟩ := hStand.runs hPlaced hGranted hStatus hAllows hExits
  have hRecords := exits_of_pass hPass
  have hPid : w.machine.sv.pid = pid := pid_eq hReach
  have hStep := Machine.step_settle hOpen hStatus
  rw [hPass] at hStep
  cases turn with
  | done code =>
    right
    have hDone : (w.machine.step r).result = some (.ok code) := by rw [hStep, Machine.settle]
    have hSv : (w.machine.step r).sv = v := by rw [hStep, Machine.settle]
    obtain ⟨status', hSame, hDeath, hCode⟩ := Machine.step_done hOpen hDone
    cases hStatus.symm.trans hSame
    simp only [Obeyed, hStatus] at hObeyed
    have hEnd := hObeyed.2 (hDeath.trans (congrArg some hPid))
    rw [hDone, hSv, hCode, hEnd]
    refine ⟨rfl, ?_⟩
    simp only [hDeath, ne_eq, not_true_eq_false, false_and, if_false, List.append_nil] at hRecords
    have hKept : v.exits = w.machine.sv.exits := hRecords
    exact h.recording.oneExit.imp hKept.trans hKept.trans
  | wait awaits' =>
    left
    have hPassed := pass_ok hPass
    have hNext : (w.machine.step r).result = none := by rw [hStep, Machine.settle]
    have hSv : (w.machine.step r).sv = v := by rw [hStep, Machine.settle]
    have hAwaits : (w.machine.step r).awaits = awaits' := by rw [hStep, Machine.settle]
    obtain ⟨hCurrent, hParents⟩ := hStand.passed hPlaced hStatus hAllows hExits hPassed
    have hFlag : (w.machine.step r).sv.groupExiting = true := by
      have hServices : (w.machine.step r).sv.groupExiting =
          (w.machine.services.observe r).groupExiting :=
        congrArg Services.groupExiting (Machine.step_services hOpen)
      rw [hServices]
      exact Services.groupExiting_mono r h.standstill.flag
    refine ⟨hNext, ⟨?_, hFlag, ?_⟩, ?_⟩
    · rw [hSv]
      exact hCurrent
    · rw [hAwaits]
      exact hParents
    · rw [hSv]
      have hRead : Recording { w.machine.sv with effects := [] } e := h.recording
      exact hRead.passed hPlaced hStatus hAllows hStand.current hPassed hRecords

theorem tearing {x : World × Option ExitGroup}
    (h : (exitGroupSystem pid seed).Reach (TearsDown pid) x)
    (hCalled : x.2 = some e) : (x.1.machine.result = none ∧ Tearing x.1.machine e) ∨
      (x.1.machine.result = some (.ok e.code) ∧ x.1.machine.sv.OneExit e) := by
  refine System.Reach.invariant (I := fun x => ∀ e, x.2 = some e →
    (x.1.machine.result = none ∧ Tearing x.1.machine e) ∨
      (x.1.machine.result = some (.ok e.code) ∧ x.1.machine.sv.OneExit e)) ?_ ?_ h e hCalled
  · rintro x ⟨_, hNone⟩ e hCalled
    rw [hNone] at hCalled
    cases hCalled
  · intro x l y hReach hTearing hOk hStep e hCalled
    obtain ⟨hNext, hNote⟩ := System.observed_step hStep
    have hWorld : (system pid seed).Reach Unheld x.1 := hReach.unobserved fun _ _ hOk => hOk.unheld
    rw [hNote] at hCalled
    cases l with
    | spawn p c thread vm =>
      have hSame : x.2 = some e := by
        cases hOld : x.2 with
        | none =>
          rw [hOld] at hCalled
          cases hCalled
        | some e' => rwa [hOld] at hCalled
      rw [spawn_machine hNext]
      exact hTearing e hSame
    | exec p =>
      have hSame : x.2 = some e := by
        cases hOld : x.2 with
        | none =>
          rw [hOld] at hCalled
          cases hCalled
        | some e' => rwa [hOld] at hCalled
      rw [exec_machine hNext]
      exact hTearing e hSame
    | report r =>
      obtain ⟨hRunning, hAllows, hMachine, _⟩ := observe_eq_some hNext
      rw [hMachine]
      have hGranted : r.Granted := hOk.granted (by rw [hCalled]; rfl)
      cases hOld : x.2 with
      | none =>
        have hScheduled := hOk.scheduled hOld
        rw [hCalled] at hScheduled
        rw [hOld] at hCalled
        exact .inl (tearing_call hWorld hRunning hAllows hGranted hScheduled hCalled)
      | some e' =>
        rw [hOld, ExitGroup.note_some] at hCalled
        cases hCalled
        rcases hTearing e hOld with ⟨_, hNow⟩ | ⟨hDone, _⟩
        · have hObeyed := hOk.obeyed
          rw [show x = (x.1, some e) from Prod.ext rfl hOld] at hObeyed
          exact tearing_step hWorld hNow hRunning hAllows hGranted hObeyed
        · rw [hDone] at hRunning
          cases hRunning

/-- As long as the kernel refuses nothing and no pid is reused too early, the end of the init's
group goes through. -/
theorem torn_down {x : World × Option ExitGroup}
    (h : (exitGroupSystem pid seed).Reach (TearsDown pid) x) (hCalled : x.2 = some e) :
    TornDown pid x e := by
  have hWorld : (system pid seed).Reach Unheld x.1 := h.unobserved fun _ _ hOk => hOk.unheld
  have hTearing := tearing h hCalled
  refine ⟨?_, ?_, fun hOpen q => lets_exit hWorld hOpen q, fun r w hOk hStep q hResumes hYes => ?_⟩
  · rcases hTearing with ⟨hOpen, _⟩ | ⟨hDone, _⟩
    · exact .inl ⟨hOpen, init_lives hWorld hOpen⟩
    · exact .inr hDone
  · rcases hTearing with ⟨_, hNow⟩ | ⟨_, hOne⟩
    · exact hNow.recording.oneExit
    · exact hOne
  · obtain ⟨hRunning, hAllows, hMachine, _⟩ := observe_eq_some hStep
    rcases hTearing with ⟨_, hNow⟩ | ⟨hDone, _⟩
    · have hObeyed := hOk.obeyed
      rw [show x = (x.1, some e) from Prod.ext rfl hCalled] at hObeyed
      have hGranted : r.Granted := hOk.granted (by rw [hCalled]; rfl)
      obtain ⟨status, hStatus⟩ := hGranted.status
      have hExits := hObeyed.onlyExits hStatus
      have hPlaced : Placed { x.1.machine.sv with effects := [] } x.1.machine.awaits x.1.tracees :=
        (placed hWorld hRunning).congr rfl rfl rfl rfl rfl rfl rfl
      have hStand : Standstill { x.1.machine.sv with effects := [] } x.1.machine.awaits e.caller :=
        ⟨hNow.standstill.current, hNow.standstill.flag, hNow.standstill.parents⟩
      obtain ⟨turn, v, hPass⟩ := hStand.runs hPlaced hGranted hStatus hAllows hExits
      have hSv : w.machine.sv = v := by
        rw [hMachine, Machine.step_sv hRunning hStatus, hPass]
        rfl
      rw [hSv] at hResumes hYes
      obtain ⟨sig, rfl⟩ := hStand.resumes_dying hPlaced rfl hStatus hAllows hExits (pass_ok hPass)
        hResumes hYes
      simp only [Report.dying, hStatus]
    · rw [hDone] at hRunning
      cases hRunning

/-! ### Runs -/

/-- What can be checked of the condition by running. -/
def Checked (pid : Pid) (x : World × Option ExitGroup) (l : Label) : Prop :=
  x.1.LeaderLast l ∧ Obeyed pid x l ∧ CallerScheduled pid x l

instance (pid : Pid) (x : World × Option ExitGroup) (l : Label) : Decidable (Checked pid x l) :=
  inferInstanceAs (Decidable (_ ∧ _ ∧ _))

/-- The init creates thread 2, which calls `exit_group`; the exit stops and the deaths come in
between those of the init. -/
def threadEndsGroup : List Label :=
  newThread ++ [.report (.leaves 1), .report (.enters 2 { origRax := 231, rdi := 7 }),
    .report (.plain (.ptraceEvent 1 .SIGTRAP .exit)),
    .report (.plain (.ptraceEvent 2 .SIGTRAP .exit)),
    .report (.plain (.exited 2 7)), .report (.plain (.exited 1 7))]

theorem granted_default {status : WaitStatus} {info : Pid → SyscallOp} {regs : Pid → Regs}
    {child : Pid → Except Errno Pid} {mem : Pid → U64 → Nat → Except Errno (List Byte)} :
    Report.Granted ⟨.ok status, {
      syscallInfo := fun p => .ok (info p)
      getregs := fun p => .ok (regs p)
      getevent := child
      readMem := mem }⟩ where
  status := ⟨status, rfl⟩
  answers := ⟨fun p => ⟨info p, rfl⟩, fun p => ⟨regs p, rfl⟩, fun _ => rfl, fun _ => rfl,
    fun _ _ data => ⟨data.length, rfl⟩⟩

theorem threadEndsGroup_granted : ∀ l ∈ threadEndsGroup, ∀ r, l = .report r → r.Granted := by
  intro l hl r hEq
  subst hEq
  simp only [threadEndsGroup, newThread, List.cons_append, List.nil_append, List.mem_cons,
    Label.report.injEq, reduceCtorEq, false_or, List.not_mem_nil, or_false] at hl
  rcases hl with rfl | rfl | rfl | rfl | rfl | rfl | rfl | rfl | rfl
  all_goals exact granted_default

theorem torn_down_thread : ∃ x e,
    (exitGroupSystem 1 0).Reach (TearsDown 1) x ∧ x.2 = some e ∧ (e.caller, e.vtid) = (2, 1) ∧
      x.1.machine.result.bind Except.toOption = some 7 ∧ x.1.machine.sv.exits = [.num 1] ∧
      TornDown 1 x e := by
  have hRun : ((exitGroupSystem 1 0).exec (fun x l => Checked 1 x l ∧ x.1.Unheld l)
      (start 1 0 {}, none) threadEndsGroup).map (fun x =>
      (x.2.map fun e => (e.caller, e.vtid), x.1.machine.result.bind Except.toOption,
        x.1.machine.sv.exits)) = some (some (2, 1), some 7, [.num 1]) := by decide +kernel
  obtain ⟨x, hExec, hx⟩ := Option.map_eq_some_iff.mp hRun
  simp only [Prod.mk.injEq] at hx
  obtain ⟨hCalled, hResult, hExits⟩ := hx
  obtain ⟨e, hNoted, hCaller⟩ := Option.map_eq_some_iff.mp hCalled
  have hSteps : (exitGroupSystem 1 0).Run (TearsDown 1) (start 1 0 {}, none) threadEndsGroup x :=
    (System.run_of_exec_mem hExec threadEndsGroup_granted).mono fun _ l hOk => by
      obtain ⟨⟨⟨_, hObeyed, hScheduled⟩, hUnheld⟩, hGranted⟩ := hOk
      refine ⟨hObeyed, hUnheld, hScheduled, ?_⟩
      cases l with
      | report r => exact fun _ => hGranted r rfl
      | spawn p c thread vm => trivial
      | exec p => trivial
  have hReach : (exitGroupSystem 1 0).Reach (TearsDown 1) x :=
    System.Reach.run (.init ⟨⟨{}, rfl⟩, rfl⟩) hSteps
  exact ⟨x, e, hReach, hNoted, hCaller, hResult, hExits, torn_down hReach hNoted⟩

/-- The init forks 2 and calls `exit_group`; 2 is killed right after its next stop is reported. -/
def refused : List Label :=
  [.spawn 1 2 false false, .report (.created 1 .fork 2), .report (.plain (.stopped 2 .SIGSTOP)),
   .report (.enters 1 { origRax := 231, rdi := 7 }),
   .report ⟨.ok (.ptraceSyscall 2), { syscallInfo := fun _ => .error ESRCH }⟩]

/-- Thread 2 calls `exit_group` and ends; its pid is given to a child of the process 3, which ends
too. -/
def reused : List Label :=
  [.spawn 1 3 false false, .report (.created 1 .fork 3), .report (.plain (.stopped 3 .SIGSTOP))] ++
  newThread ++ [.report (.leaves 1), .report (.enters 2 { origRax := 231, rdi := 7 }),
    .report (.plain (.ptraceEvent 2 .SIGTRAP .exit)), .report (.plain (.exited 2 7)),
    .spawn 3 2 false false, .report (.created 3 .fork 2), .report (.plain (.exited 2 0))]

theorem not_torn_down :
    (∃ x e, (exitGroupSystem 1 0).exec (fun x l => Checked 1 x l ∧ x.1.Unheld l)
      (start 1 0 {}, none) refused = some x ∧ x.2 = some e ∧ ¬ TornDown 1 x e) ∧
    ∃ x e, (exitGroupSystem 1 0).exec (Checked 1) (start 1 0 {}, none) reused = some x ∧
      x.2 = some e ∧ ¬ TornDown 1 x e := by
  constructor
  · have hRun : ((exitGroupSystem 1 0).exec (fun x l => Checked 1 x l ∧ x.1.Unheld l)
        (start 1 0 {}, none) refused).map (fun x => (x.2.isSome, x.1.machine.result.isSome,
        x.1.machine.result.bind Except.toOption)) = some (true, true, none) := by decide +kernel
    obtain ⟨x, hExec, hx⟩ := Option.map_eq_some_iff.mp hRun
    simp only [Prod.mk.injEq] at hx
    obtain ⟨hCalled, hDone, hResult⟩ := hx
    obtain ⟨e, hNoted⟩ := Option.isSome_iff_exists.mp hCalled
    refine ⟨x, e, hExec, hNoted, fun h => ?_⟩
    rcases h.outcome with ⟨hOpen, _⟩ | hEnd
    · rw [hOpen] at hDone
      cases hDone
    · rw [hEnd] at hResult
      cases hResult
  · have hRun : ((exitGroupSystem 1 0).exec (Checked 1) (start 1 0 {}, none) reused).map (fun x =>
        (x.2.map ExitGroup.exits, x.1.machine.sv.exits.length)) = some (some [], 2) := by
      decide +kernel
    obtain ⟨x, hExec, hx⟩ := Option.map_eq_some_iff.mp hRun
    simp only [Prod.mk.injEq] at hx
    obtain ⟨hCalled, hTwo⟩ := hx
    obtain ⟨e, hNoted, hNone⟩ := Option.map_eq_some_iff.mp hCalled
    refine ⟨x, e, hExec, hNoted, fun h => ?_⟩
    rcases h.records with hSame | hOne
    · rw [hSame, hNone] at hTwo
      cases hTwo
    · rw [hOne, hNone] at hTwo
      cases hTwo

end World

end Dtrun
