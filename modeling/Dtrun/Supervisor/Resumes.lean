import Dtrun.Supervisor.Frames
import Dtrun.Supervisor.Living
import Dtrun.Supervisor.Places

/-! # Who is let run

A status lets run the task that reports it, a child that it registers, or the next thread of the
queue. The last needs a status that makes `current` name somebody else.
-/
namespace Dtrun
set_option autoImplicit false
open FiniteMap StateExcept Transition Supervisor

variable {k : Answers} {s s' v : Supervisor} {t : Tracees} {p q : Pid} {r : Report}
  {status : WaitStatus} {flow : Flow} {awaits awaits' : List Await}

/-- A request in the log lets `q` run. -/
def Supervisor.Resumes (s : Supervisor) (q : Pid) : Prop := ∃ sig, Effect.resume q sig ∈ s.effects

namespace Supervisor.Resumes

theorem quiet (hQuiet : Quiet s s') (h : s'.Resumes q) : s.Resumes q := by
  obtain ⟨sig, hMem⟩ := h
  have hFilter : Effect.resume q sig ∈ s'.effects.filter Effect.isResume :=
    List.mem_filter.mpr ⟨hMem, rfl⟩
  rw [hQuiet.resumes] at hFilter
  exact ⟨sig, (List.mem_filter.mp hFilter).1⟩

theorem append {sig : Option Signal} (hEffects : s'.effects = s.effects ++ [.resume p sig])
    (h : s'.Resumes q) : s.Resumes q ∨ q = p := by
  obtain ⟨sig', hMem⟩ := h
  rw [hEffects] at hMem
  rcases List.mem_append.mp hMem with hMem | hMem
  · exact .inl ⟨sig', hMem⟩
  · cases List.mem_singleton.mp hMem
    exact .inr rfl

theorem congr (hEffects : s'.effects = s.effects) (h : s'.Resumes q) : s.Resumes q := by
  rwa [Resumes, hEffects] at h

theorem resumed (h : (s.resumed p).Resumes q) : s.Resumes q ∨ q = p := h.append rfl

theorem not_nil (hEffects : s.effects = []) : ¬ s.Resumes q := by
  rintro ⟨sig, hMem⟩
  simp [hEffects] at hMem

theorem resumeTask (hResume : resumeTask k p s = .ok () s') (h : s'.Resumes q) :
    s.Resumes q ∨ (q = p ∧ (s.isScheduled p = true → s.current = some p)) := by
  rcases resumeTask_ok hResume with ⟨_, rfl, hCurrent⟩ | ⟨_, _, rfl⟩
  · exact h.resumed.imp_right fun hq => ⟨hq, hCurrent⟩
  · exact .inl h

theorem release (hRelease : release k p s = .ok () s') (h : s'.Resumes q) :
    s.Resumes q ∨ (q = p ∧ s.isScheduled p = false) := by
  rcases release_ok hRelease with ⟨_, rfl⟩ | ⟨hNot, _, rfl⟩
  · exact .inl h
  · exact h.resumed.imp_right fun hq => ⟨hq, hNot⟩

theorem picks (hPicks : Picks k s s') (h : s'.Resumes q) :
    s.Resumes q ∨ (s'.current = some q ∧ s'.registered q = true) := by
  cases hPicks with
  | idle => exact .inl h
  | @run skipped rest tid thread hQueue hSkips hLookup hBlocked hOk =>
    rcases h.resumed with h | rfl
    · rw [scheduled_frame] at h
      exact .inl h
    · rw [scheduled_frame]
      exact .inr ⟨rfl, by simp [Supervisor.resumed, registered, hLookup]⟩

theorem runsOn (hTail : RunsOn k s s') (h : s.Resumes q) : s'.Resumes q := by
  obtain ⟨sig, hMem⟩ := h
  rcases hTail with ⟨_, hPicks⟩ | ⟨_, rfl⟩
  · cases hPicks with
    | idle => exact ⟨sig, hMem⟩
    | run =>
      rw [scheduled_frame]
      exact ⟨sig, List.mem_append_left _ hMem⟩
  · exact ⟨sig, hMem⟩

end Supervisor.Resumes

theorem Tracees.released_applyAll {effects : List Effect}
    (h : (t.applyAll effects).phase q = some .released) :
    t.phase q = some .released ∨
      (t.phase q = some .held ∧ ∃ sig, Effect.resume q sig ∈ effects) := by
  induction effects generalizing t with
  | nil => exact .inl h
  | cons e rest ih =>
    have later (hSame : (t.apply e).phase q = t.phase q) : t.phase q = some .released ∨
        (t.phase q = some .held ∧ ∃ sig, Effect.resume q sig ∈ e :: rest) := by
      rcases ih (t := t.apply e) h with hRan | ⟨hHeld, sig, hMem⟩
      · exact .inl (hSame ▸ hRan)
      · exact .inr ⟨hSame ▸ hHeld, sig, List.mem_cons_of_mem _ hMem⟩
    cases e with
    | resume p sig =>
      rcases t.resume_cases p q with hSame | ⟨rfl, hHeld, _⟩ | ⟨_, _, hNow⟩
      · exact later hSame
      · exact .inr ⟨hHeld, sig, List.mem_cons_self⟩
      · change (t.apply (.resume p sig)).phase q = _ at hNow
        rcases ih h with hRan | ⟨hHeld, _⟩
        · simp [hNow] at hRan
        · simp [hNow] at hHeld
    | setregs p regs => exact later rfl
    | write p addr data => exact later rfl

theorem Tracees.released_after (h : (t.after s).phase q = some .released) :
    t.phase q = some .released ∨ (t.phase q = some .held ∧ s.Resumes q) := released_applyAll h

theorem Tracees.newborn_after :
    (t.after s).phase q = some .newborn ↔ t.phase q = some .newborn := by
  rw [Tracees.after]
  induction s.effects generalizing t with
  | nil => exact .rfl
  | cons e rest ih =>
    refine ih.trans ?_
    cases e with
    | resume p sig =>
      change (t.resume p).phase q = _ ↔ _
      rcases t.resume_cases p q with hSame | ⟨_, hOld, hNew⟩ | ⟨_, hOld, hNew⟩
      · rw [hSame]
      · simp [hOld, hNew]
      · simp [hOld, hNew]
    | setregs p regs => exact .rfl
    | write p addr data => exact .rfl

/-- The status makes `current` name somebody else: a scheduled thread comes to a system call stop,
or the current one dies outside a group exit. -/
def Supervisor.GivesUp (s : Supervisor) (status : WaitStatus) : Prop :=
  (∃ p, status = .ptraceSyscall p ∧ s.isScheduled p = true) ∨
    ∃ p, status.death = some p ∧ s.current = some p ∧ s.groupExiting = false

/-- Why a status lets `q` run. -/
inductive LetsGo (k : Answers) (s : Supervisor) (status : WaitStatus) (s' : Supervisor) (q : Pid) :
    Prop
  | dying {sig : Signal} (hStatus : status = .ptraceEvent q sig .exit) : LetsGo k s status s' q
  | own (hStop : status.stop = some q)
      (hCurrent : s.isScheduled q = true → s.current = some q) : LetsGo k s status s' q
  | child {p : Pid} {sig : Signal} {event : Event} (hStatus : status = .ptraceEvent p sig event)
      (hEvent : event.creates = true) (hChild : k.getevent p = .ok q)
      (hNot : s'.isScheduled q = false) : LetsGo k s status s' q
  | next (hGivesUp : s.GivesUp status) (hCurrent : s'.current = some q)
      (hKnown : s'.registered q = true) : LetsGo k s status s' q

theorem wakes_frame (s : Supervisor) (addr : U64) (vals : List U64) :
    (s.wakes addr vals).current = s.current ∧ (s.wakes addr vals).pendingStart = s.pendingStart ∧
      (s.wakes addr vals).effects = s.effects := by
  induction vals generalizing s with
  | nil => exact ⟨rfl, rfl, rfl⟩
  | cons val rest ih =>
    obtain ⟨hCurrent, hStart, hEffects⟩ := ih (s.wake addr val).2
    exact ⟨hCurrent.trans (by rw [wake_frame]), hStart.trans (by rw [wake_frame]),
      hEffects.trans (by rw [wake_frame])⟩

theorem Entered.frame {b : Bool} (h : Entered k p s b s') :
    s'.current = s.current ∧ s'.pendingStart = s.pendingStart ∧
      ∀ q, s'.Resumes q → s.Resumes q := by
  cases h with
  | quiet hQuiet => exact ⟨hQuiet.current, hQuiet.pendingStart, fun q hq => hq.quiet hQuiet⟩
  | @wake _ regs vals _ _ hQuiet =>
    obtain ⟨hCurrent, hStart, hEffects⟩ := wakes_frame s regs.rdi vals
    exact ⟨hQuiet.current.trans hCurrent, hQuiet.pendingStart.trans hStart,
      fun q hq => (hq.quiet hQuiet).congr hEffects⟩
  | wait _ _ hQuiet =>
    exact ⟨hQuiet.current, hQuiet.pendingStart, fun q hq => (hq.quiet hQuiet).congr rfl⟩

theorem Picks.pendingStart (h : Picks k s s') : s'.pendingStart = s.pendingStart := by
  cases h with
  | idle => rfl
  | run =>
    rw [scheduled_frame]
    rfl

theorem isScheduled_of_threads (h : s'.threads = s.threads) (q : Pid) :
    s'.isScheduled q = s.isScheduled q := by
  simp only [isScheduled, h]

theorem registered_of_threads (h : s'.threads = s.threads) (q : Pid) :
    s'.registered q = s.registered q := by
  simp only [registered, h]

theorem SyscallHandled.pendingStart (h : SyscallHandled k p s s') :
    s'.pendingStart = s.pendingStart := by
  cases h with
  | concurrent _ hQuiet _ => exact hQuiet.pendingStart
  | wait _ hEntered => exact hEntered.frame.2.1
  | entry _ _ hEntered _ => exact hEntered.frame.2.1
  | stay _ _ hEntered => exact hEntered.frame.2.1
  | yield _ _ hQuiet hPicks => exact hPicks.pendingStart.trans hQuiet.pendingStart
  | pick _ _ hQuiet hPicks => exact hPicks.pendingStart.trans hQuiet.pendingStart

theorem SyscallHandled.current (h : SyscallHandled k p s s') :
    s'.current = s.current ∨ s.GivesUp (.ptraceSyscall p) := by
  cases h with
  | concurrent _ hQuiet _ => exact .inl hQuiet.current
  | wait hYes => exact .inr (.inl ⟨p, rfl, hYes⟩)
  | entry _ _ hEntered _ => exact .inl hEntered.frame.1
  | stay _ _ hEntered => exact .inl hEntered.frame.1
  | yield hYes => exact .inr (.inl ⟨p, rfl, hYes⟩)
  | pick hYes => exact .inr (.inl ⟨p, rfl, hYes⟩)

theorem SyscallHandled.letsGo (h : SyscallHandled k p s s') (hq : s'.Resumes q) :
    s.Resumes q ∨ LetsGo k s (.ptraceSyscall p) s' q := by
  have searched {v : Supervisor} (hPicks : Picks k v s') (hYes : s.isScheduled p = true)
      (hv : v.Resumes q → s.Resumes q) : s.Resumes q ∨ LetsGo k s (.ptraceSyscall p) s' q := by
    rcases hq.picks hPicks with hq | ⟨hCurrent, hKnown⟩
    · exact .inl (hv hq)
    · exact .inr (.next (.inl ⟨p, rfl, hYes⟩) hCurrent hKnown)
  cases h with
  | concurrent hNot hQuiet _ =>
    rcases hq.resumed with hq | rfl
    · exact .inl (hq.quiet hQuiet)
    · exact .inr (.own rfl fun hYes => by rw [hNot] at hYes; cases hYes)
  | wait _ hEntered => exact .inl (hEntered.frame.2.2 q (hq.congr rfl))
  | entry _ hCurrent hEntered _ =>
    rcases hq.resumed with hq | rfl
    · exact .inl (hEntered.frame.2.2 q hq)
    · exact .inr (.own rfl fun _ => hEntered.frame.1.symm.trans hCurrent)
  | stay _ _ hEntered => exact .inl (hEntered.frame.2.2 q hq)
  | yield hYes _ hQuiet hPicks => exact searched hPicks hYes fun hq => (hq.congr rfl).quiet hQuiet
  | pick hYes _ hQuiet hPicks => exact searched hPicks hYes fun hq => hq.quiet hQuiet

theorem StopHandled.current_eq {sig : Signal} (h : StopHandled k p sig s s') :
    s'.current = s.current := by
  cases h with
  | current => rfl
  | attached _ _ _ hRelease => exact (release_frame hRelease).2.2
  | early => rfl
  | again => rfl
  | signal => rfl
  | noted _ _ _ hQuiet => exact hQuiet.current

theorem StopHandled.pendingStart {sig : Signal} (h : StopHandled k p sig s s')
    (hq : q ∈ s.pendingStart) (hOther : ¬ (q = p ∧ sig = .SIGSTOP)) : q ∈ s'.pendingStart := by
  cases h with
  | current => exact hq
  | attached _ hSig _ hRelease =>
    rw [(release_frame hRelease).2.1]
    exact Finset.mem_erase_of_ne_of_mem (fun hEq => hOther ⟨hEq, hSig⟩) hq
  | early => exact hq
  | again => exact hq
  | signal => exact hq
  | noted _ _ _ hQuiet =>
    rw [hQuiet.pendingStart]
    exact hq

theorem StopHandled.letsGo {sig : Signal} (h : StopHandled k p sig s s') (hq : s'.Resumes q) :
    s.Resumes q ∨ LetsGo k s (.stopped p sig) s' q := by
  cases h with
  | current hCurrent _ _ =>
    rcases hq.resumed with hq | rfl
    · exact .inl hq
    · exact .inr (.own rfl fun _ => hCurrent)
  | attached _ _ _ hRelease =>
    rcases hq.release hRelease with hq | ⟨rfl, hNot⟩
    · exact .inl (hq.congr rfl)
    · have hNot' : s.isScheduled q = false := hNot
      exact .inr (.own rfl fun hYes => by rw [hNot'] at hYes; cases hYes)
  | early => exact .inl (hq.congr rfl)
  | again => exact .inl hq
  | signal _ _ hWho =>
    rcases hq.append rfl with hq | rfl
    · exact .inl hq
    · refine .inr (.own rfl fun hYes => ?_)
      rcases hWho with hCurrent | ⟨hNot, _⟩
      · exact hCurrent
      · rw [hNot] at hYes
        cases hYes
  | noted _ _ _ hQuiet => exact .inl (hq.quiet hQuiet)

/-- What a registration leaves as it is. -/
theorem Registered.frame {info : CloneInfo} (h : Registered k p info s s') :
    s'.current = s.current ∧ s.pendingStart ⊆ s'.pendingStart := by
  cases h with
  | again => exact ⟨rfl, Finset.Subset.refl _⟩
  | released _ _ hRelease hQuiet =>
    obtain ⟨_, hStart, hCurrent⟩ := release_frame hRelease
    refine ⟨hQuiet.current.trans hCurrent, ?_⟩
    rw [hQuiet.pendingStart, hStart]
  | expected _ _ hQuiet =>
    refine ⟨hQuiet.current, ?_⟩
    rw [hQuiet.pendingStart]
    exact Finset.subset_insert _ _

theorem Registered.letsGo {info : CloneInfo} (h : Registered k p info s s') (hq : s'.Resumes q) :
    s.Resumes q ∨ (q = p ∧ s'.isScheduled p = false) := by
  cases h with
  | again => exact .inl hq
  | released hFresh _ hRelease hQuiet =>
    rcases (hq.quiet hQuiet).release hRelease with hq | ⟨rfl, hNot⟩
    · exact .inl (hq.congr rfl)
    · refine .inr ⟨rfl, ?_⟩
      rw [hQuiet.isScheduled, isScheduled_of_threads (release_frame hRelease).1]
      exact hNot
  | expected _ _ hQuiet => exact .inl ((hq.quiet hQuiet).congr rfl)

namespace Dispatched

theorem current (h : Dispatched k s status flow s') :
    s'.current = s.current ∨ s.GivesUp status := by
  cases h with
  | syscall hHandled => exact hHandled.current
  | clone _ _ hRegister hFlow =>
    have hv := hRegister.frame.1
    rcases hFlow with ⟨_, _, rfl⟩ | ⟨_, _, hResume⟩
    · exact .inl hv
    · rcases resumeTask_ok hResume with ⟨_, rfl, _⟩ | ⟨_, _, rfl⟩
      · exact .inl hv
      · exact .inl hv
  | dying => exact .inl rfl
  | event _ _ hResume =>
    rcases resumeTask_ok hResume with ⟨_, rfl, _⟩ | ⟨_, _, rfl⟩
    · exact .inl rfl
    · exact .inl rfl
  | stopped hStop => exact .inl hStop.current_eq
  | finished _ hQuiet => exact .inl hQuiet.current
  | @died status p t hDeath _ hExit =>
    rcases dispatchExit_ok hExit with ⟨hCurrent, hFlag, _⟩ | ⟨_, rfl⟩
    · exact .inr (.inr ⟨p, hDeath, hCurrent, hFlag⟩)
    · rw [onThreadExit_frame]
      exact .inl rfl
  | idle => exact .inl rfl

theorem pendingStart (h : Dispatched k s status flow s') (hq : q ∈ s.pendingStart)
    (hStop : status ≠ .stopped q .SIGSTOP) (hDeath : status.death ≠ some q) :
    q ∈ s'.pendingStart := by
  cases h with
  | syscall hHandled => rwa [hHandled.pendingStart]
  | clone _ _ hRegister hFlow =>
    have hv := hRegister.frame.2 hq
    rcases hFlow with ⟨_, _, rfl⟩ | ⟨_, _, hResume⟩
    · exact hv
    · rcases resumeTask_ok hResume with ⟨_, rfl, _⟩ | ⟨_, _, rfl⟩
      · exact hv
      · exact hv
  | dying => exact hq
  | event _ _ hResume =>
    rcases resumeTask_ok hResume with ⟨_, rfl, _⟩ | ⟨_, _, rfl⟩
    · exact hq
    · exact hq
  | @stopped p sig _ hHandled =>
    refine hHandled.pendingStart hq ?_
    rintro ⟨rfl, rfl⟩
    exact hStop rfl
  | finished _ hQuiet => rwa [hQuiet.pendingStart]
  | @died status p t hDied _ hExit =>
    have hne : q ≠ p := fun hEq => hDeath (hEq ▸ hDied)
    have hErased (record : Bool) : q ∈ (s.onThreadExit p record).pendingStart := by
      rw [onThreadExit_frame]
      exact Finset.mem_erase_of_ne_of_mem hne hq
    rcases dispatchExit_ok hExit with ⟨_, _, hPicks⟩ | ⟨_, rfl⟩
    · rw [hPicks.pendingStart]
      exact hErased true
    · exact hErased _
  | idle => exact hq

theorem unregistered (h : Dispatched k s status flow s') (hDeath : status.death = some q)
    (hFlow : ∀ code, flow ≠ .exit code) : s'.registered q = false := by
  cases h with
  | @died status p t hDied _ hExit =>
    cases Option.some.inj (hDied.symm.trans hDeath)
    have hErased (record : Bool) : (s.onThreadExit q record).registered q = false := by
      rw [registered, onThreadExit_frame, Map.get_erase, if_pos rfl]
      rfl
    rcases dispatchExit_ok hExit with ⟨_, _, hPicks⟩ | ⟨_, rfl⟩
    · rw [registered_of_threads hPicks.threads]
      exact hErased true
    · exact hErased _
  | idle hIdle =>
    rcases hIdle with ⟨p, rfl⟩ | rfl
    · cases hDeath
    · cases hDeath
  | finished => exact absurd rfl (hFlow _)
  | _ => cases hDeath

theorem isScheduled_of (h : Dispatched k s status flow s') (hFlow : ∀ code, flow ≠ .exit code)
    (hq : s'.isScheduled q = true) : s.isScheduled q = true ∨
      ∃ p sig event, status = .ptraceEvent p sig event ∧ event.creates = true ∧
        k.getevent p = .ok q := by
  rcases h.lookup q with hSame | hDeath | ⟨_, hChild⟩
  · refine .inl ?_
    rwa [Supervisor.isScheduled, hSame] at hq
  · exact absurd hq (not_isScheduled (h.unregistered hDeath hFlow))
  · exact .inr hChild

/-- Why a task is let run. -/
theorem letsGo (h : Dispatched k s status flow s') (hEffects : s.effects = [])
    (hq : s'.Resumes q) : LetsGo k s status s' q := by
  have hNot : ¬ s.Resumes q := Resumes.not_nil hEffects
  cases h with
  | syscall hHandled => exact (hHandled.letsGo hq).resolve_left hNot
  | @clone p child sig event v t flow hEvent hChild hRegister hFlow =>
    have registered (hv : v.Resumes q) (hSame : s'.isScheduled q = v.isScheduled q) :
        LetsGo k s (.ptraceEvent p sig event) s' q := by
      rcases hRegister.letsGo hv with hOld | ⟨rfl, hFree⟩
      · exact absurd (hOld.congr rfl) hNot
      · exact .child rfl hEvent hChild (hSame.trans hFree)
    rcases hFlow with ⟨_, _, rfl⟩ | ⟨_, _, hResume⟩
    · exact registered hq rfl
    · have hSame := isScheduled_of_threads (resumeTask_threads hResume) q
      rcases hq.resumeTask hResume with hv | ⟨rfl, hCurrent⟩
      · exact registered hv hSame
      · refine .own rfl fun hYes => ?_
        have hYes' : v.isScheduled q = true := by
          rcases hRegister.lookup q with hKept | ⟨rfl, hFresh⟩
          · rw [Supervisor.isScheduled, hKept]
            exact hYes
          · exact absurd hYes (not_isScheduled (s := s) hFresh)
        exact hRegister.frame.1.symm.trans (hCurrent hYes')
  | dying =>
    rcases hq.resumed with hOld | rfl
    · exact absurd hOld hNot
    · exact .dying rfl
  | event _ _ hResume =>
    rcases hq.resumeTask hResume with hOld | ⟨rfl, hCurrent⟩
    · exact absurd hOld hNot
    · exact .own rfl hCurrent
  | stopped hStop => exact (hStop.letsGo hq).resolve_left hNot
  | finished _ hQuiet => exact absurd (hq.quiet hQuiet) hNot
  | @died status p t hDeath _ hExit =>
    have hErased (record : Bool) : ¬ (s.onThreadExit p record).Resumes q := by
      refine Resumes.not_nil ?_
      rw [onThreadExit_frame]
      exact hEffects
    rcases dispatchExit_ok hExit with ⟨hCurrent, hFlag, hPicks⟩ | ⟨_, rfl⟩
    · rcases hq.picks hPicks with hOld | ⟨hNow, hKnown⟩
      · exact absurd (hOld.congr rfl) (hErased true)
      · exact .next (.inr ⟨p, hDeath, hCurrent, hFlag⟩) hNow hKnown
    · exact absurd hq (hErased _)
  | idle => exact absurd hq hNot

end Dispatched

theorem Passed.unregistered (h : Passed k s awaits status (.wait awaits') s')
    (hDeath : status.death = some q) : s'.registered q = false := by
  cases h with
  | next hDispatched hTail =>
    rw [registered_of_threads hTail.threads]
    exact hDispatched.unregistered hDeath (by simp)
  | again _ hDispatched => exact hDispatched.unregistered hDeath (by simp)
  | await hDispatched => exact hDispatched.unregistered hDeath (by simp)
  | attached => cases hDeath

end Dtrun
