import Dtrun.Supervisor.Placement

/-! # The places along a run

Each handler keeps the places, and so does a whole pass. From there to every state of every run in
which no new task gets a pid that is still held; and to what `Deadlock` means.
-/
namespace Dtrun
set_option autoImplicit false
open FiniteMap Transition Supervisor

variable {k : Answers} {s s' : Supervisor} {t t' : Tracees} {p : Pid} {awaits : List Await}

namespace Placed

theorem runsOn (h : Placed s awaits (t.after s)) (hTail : RunsOn k s s') :
    Placed s' awaits (t.after s') := by
  rcases hTail with ⟨hFree, hPicks⟩ | ⟨_, rfl⟩
  · exact h.picks hFree hPicks
  · exact h

theorem resumeTask (h : Placed s awaits (t.after s))
    (hKnown : s.registered p = true ∨ (t.after s).phase p = none)
    (hResume : Dtrun.resumeTask k p s = .ok () s') : Placed s' awaits (t.after s') := by
  rcases resumeTask_ok hResume with ⟨_, rfl, hWho⟩ | ⟨_, _, rfl⟩
  · refine h.resumed fun hHeld => ⟨hKnown.resolve_right ?_, hWho⟩
    simp [hHeld]
  · exact h

theorem release {v : Supervisor}
    (h : Placed { v with runnable := v.runnable ++ if v.isScheduled p then [p] else [] } awaits
      (t.after v)) (hKnown : v.registered p = true)
    (hRelease : Dtrun.release k p v = .ok () s') : Placed s' awaits (t.after s') := by
  rcases release_ok hRelease with ⟨hScheduled, rfl⟩ | ⟨hConcurrent, _, rfl⟩
  · rw [if_pos hScheduled] at h
    exact h
  · have hPlain : Placed v awaits (t.after v) := by
      refine h.congr rfl ?_ rfl rfl rfl rfl rfl
      simp [hConcurrent]
    exact hPlain.resumed fun _ => ⟨hKnown, fun hScheduled => by simp [hConcurrent] at hScheduled⟩

theorem entered {b : Bool} (h : Placed s awaits (t.after s))
    (hCurrent : s.isScheduled p = true → s.current = some p) (hStill : (t.after s).Still p)
    (hEntered : Entered k p s b s') :
    Placed { s' with current := if b then none else s'.current } awaits (t.after s') := by
  cases hEntered with
  | quiet hQuiet =>
    rw [Tracees.after_of_quiet hQuiet]
    exact h.quiet hQuiet
  | @wake s' regs vals hRegs hScheduled hQuiet =>
    obtain ⟨m, hMoved⟩ := h.parked.queued.wakes regs.rdi vals
    rw [Tracees.after_of_quiet hQuiet, Tracees.after_of_effects hMoved.effects]
    exact (h.unparked hMoved).quiet hQuiet
  | @wait s' regs hRegs hScheduled hQuiet =>
    rw [Tracees.after_of_quiet hQuiet]
    exact (h.wait (hCurrent hScheduled) hScheduled hStill regs.rdi).congr hQuiet.threads
      hQuiet.runnable hQuiet.pendingStart hQuiet.stoppedPending hQuiet.blocked hQuiet.waiting rfl

theorem syscall (h : Placed s awaits (t.after s)) (hKnown : s.registered p = true)
    (hCurrent : s.isScheduled p = true → s.current = some p) (hStill : (t.after s).Still p)
    (hHandled : SyscallHandled k p s s') : Placed s' awaits (t.after s') := by
  have left {v : Supervisor} (hQuiet : Quiet s v) : Placed v awaits (t.after v) := by
    rw [Tracees.after_of_quiet hQuiet]
    exact h.quiet hQuiet
  cases hHandled with
  | concurrent hConcurrent hQuiet hOk =>
    refine (left hQuiet).resumed fun _ => ⟨(hQuiet.registered p).trans hKnown, ?_⟩
    rw [hQuiet.isScheduled, hConcurrent]
    simp
  | wait hScheduled hEntered => exact h.entered hCurrent hStill hEntered
  | entry hScheduled hNow hEntered hOk =>
    have hv := h.entered hCurrent hStill hEntered
    refine resumed hv fun hHeld => ?_
    rcases hv.current p hNow with ⟨hStays, _⟩ | ⟨_, hGone⟩
    · exact ⟨registered_of_isScheduled hStays, fun _ => hNow⟩
    · exact absurd hHeld (by simp [hGone])
  | stay hScheduled hNow hEntered => exact h.entered hCurrent hStill hEntered
  | @yield v _ hScheduled hNow hQuiet hPicks =>
    have hv := (left hQuiet).yield hNow ((hQuiet.isScheduled p).trans hScheduled) (by
      rwa [Tracees.after_of_quiet hQuiet])
    exact picks (t := t) hv rfl hPicks
  | pick hScheduled hNow hQuiet hPicks =>
    exact absurd (hQuiet.current.trans (hCurrent hScheduled)) hNow

theorem registered {child parent : Pid} {info : CloneInfo} (h : Placed s awaits (t.after s))
    (hFresh : s.registered child = false) (hCurrent : s.current ≠ some child)
    (hReported : ∀ q, (t.after s).cloned q ≠ some child) (hParent : s.registered parent = true)
    (hRegister : Registered k child info s s') :
    (child ∈ s'.pendingStart → Placed s' (⟨child, parent⟩ :: awaits) (t.after s')) ∧
      (child ∉ s'.pendingStart → Placed s' awaits (t.after s')) ∧
      s'.registered parent = true := by
  obtain ⟨hOut, hFree, hNone⟩ := h.unknown hFresh
  cases hRegister with
  | again hRegistered =>
    rw [hRegistered] at hFresh
    cases hFresh
  | @released v _ _ hStopped hRelease hQuiet =>
    obtain ⟨hThreads, hStart, _⟩ := release_frame hRelease
    have hNot : child ∉ s'.pendingStart := by
      rw [hQuiet.pendingStart, hStart]
      exact hNone
    refine ⟨fun hYes => absurd hYes hNot, fun _ => ?_, ?_⟩
    · rw [Tracees.after_of_quiet hQuiet]
      refine Placed.quiet (release ?_ ?_ hRelease) hQuiet
      · refine h.register hFresh hCurrent hReported rfl ⟨rfl, rfl, rfl⟩ (fun q => ?_) ?_
          (fun q => ?_) rfl (fun w hw => .inl hw) (fun w hw => hw) fun hb => absurd hStopped hb
        · rw [isScheduled_insert rfl, if_pos rfl, List.mem_append, mem_joining]
          simp only [hStopped, and_true]
        · rw [isScheduled_insert rfl, if_pos rfl]
          exact nodup_joining h.nodup hOut
        · simp [hStopped]
      · rw [registered_insert rfl]
        exact .inl rfl
    · rw [hQuiet.registered, Supervisor.registered, hThreads]
      exact (registered_insert rfl parent).mpr (.inr hParent)
  | expected _ hStopped hQuiet =>
    have hStart : child ∈ s'.pendingStart := by
      rw [hQuiet.pendingStart]
      exact Finset.mem_insert_self child _
    refine ⟨fun _ => ?_, fun hNot => absurd hStart hNot, ?_⟩
    · rw [Tracees.after_of_quiet hQuiet]
      refine Placed.quiet ?_ hQuiet
      refine h.register hFresh hCurrent hReported rfl ⟨rfl, rfl, rfl⟩ (fun q => ?_) h.nodup
        (fun q => ?_) ?_ (fun w hw => ?_) (fun w hw => List.mem_cons_of_mem _ hw)
        fun _ => ⟨_, List.mem_cons_self, rfl⟩
      · simp [hStopped]
      · simp [hStopped, or_comm]
      · exact (Finset.erase_eq_of_notMem hStopped).symm
      · rcases List.mem_cons.mp hw with rfl | hw
        · exact .inr ⟨rfl, hParent⟩
        · exact .inl hw
    · rw [hQuiet.registered, registered_insert rfl]
      exact .inr hParent

theorem reaped (h : Placed s awaits t) (record : Bool) (hEffects : s.effects = [])
    (hDead : t'.phase p = none) (hElse : ∀ q, q ≠ p → t'.phase q = t.phase q)
    (hCloned : ∀ q c, t'.cloned q = some c → t.cloned q = some c) :
    Placed (s.onThreadExit p record) awaits (t'.after (s.onThreadExit p record)) := by
  rw [Tracees.after_nil (by rw [onThreadExit_frame, hEffects])]
  exact h.exited record hDead hElse hCloned

theorem vacated (h : Placed s awaits t) (hEffects : s.effects = []) (hDead : t'.phase p = none)
    (hElse : ∀ q, q ≠ p → t'.phase q = t.phase q)
    (hCloned : ∀ q c, t'.cloned q = some c → t.cloned q = some c) (hCurrent : s.current = some p) :
    Placed { s.onThreadExit p true with current := none } awaits
      (t'.after (s.onThreadExit p true)) := by
  refine (h.reaped true hEffects hDead hElse hCloned).vacate fun q hq => ?_
  rw [onThreadExit_frame] at hq ⊢
  cases hCurrent.symm.trans hq
  simp [Supervisor.registered]

theorem died (h : Placed s awaits t) (hEffects : s.effects = []) (hDead : t'.phase p = none)
    (hElse : ∀ q, q ≠ p → t'.phase q = t.phase q)
    (hCloned : ∀ q c, t'.cloned q = some c → t.cloned q = some c)
    (hExit : dispatchExit k p s = .ok () s') : Placed s' awaits (t'.after s') := by
  rcases dispatchExit_ok hExit with ⟨hCurrent, _, hPicks⟩ | ⟨_, rfl⟩
  · exact picks (t := t') (h.vacated hEffects hDead hElse hCloned hCurrent) rfl hPicks
  · exact h.reaped _ hEffects hDead hElse hCloned

theorem observe {r : Report} {status : WaitStatus} (h : Placed s awaits t)
    (hStatus : r.status = .ok status) (hAlive : status.death = none)
    (hAttach : ∀ q, status ≠ .stopped q .SIGSTOP) (hAllows : t.allows r = true) :
    Placed s awaits (t.observe r) := by
  have hParked := h.parked.observe hStatus hAlive hAllows
  have hCloned : ∀ q c, (t.observe r).cloned q = some c → t.cloned q = some c :=
    fun q c hq => Tracees.cloned_observe hq
  cases status with
  | exited p code => cases hAlive
  | signaled p sig core => cases hAlive
  | continued p => simpa [Tracees.observe, hStatus] using h
  | stillAlive => simpa [Tracees.observe, hStatus] using h
  | ptraceSyscall p =>
    have hPhase := Tracees.allows_syscall hStatus hAllows
    refine h.turn (p := p) (.inl ⟨hPhase, rfl⟩) ?_ (fun q hq => ?_) hCloned hParked
    · rw [Tracees.phase_observe_syscall hStatus, Tracees.phase_setPhase, if_pos rfl, hPhase]
      rfl
    · rw [Tracees.phase_observe_syscall hStatus, Tracees.phase_setPhase, if_neg hq]
  | ptraceEvent p sig event =>
    by_cases hExit : event = .exit
    · subst hExit
      have hPhase : t.phase p ≠ none := by
        rcases Tracees.allows_dying hStatus hAllows with hb | hb | hb
        · simp [hb]
        · simp [hb]
        · simp [hb]
      obtain ⟨x, hx⟩ := Option.ne_none_iff_exists'.mp hPhase
      refine h.turn (p := p) (.inr ⟨hPhase, rfl⟩) ?_ (fun q hq => ?_) hCloned hParked
      · rw [Tracees.phase_observe_dying hStatus, Tracees.phase_setPhase, if_pos rfl, hx]
        rfl
      · rw [Tracees.phase_observe_dying hStatus, Tracees.phase_setPhase, if_neg hq]
    · have hPhase := Tracees.allows_event hStatus hExit hAllows
      refine h.turn (p := p) (.inl ⟨hPhase, rfl⟩) ?_ (fun q hq => ?_) hCloned hParked
      · rw [Tracees.phase_observe_event hStatus hExit, Tracees.phase_setPhase, if_pos rfl, hPhase]
        rfl
      · rw [Tracees.phase_observe_event hStatus hExit, Tracees.phase_setPhase, if_neg hq]
  | stopped p sig =>
    have hSig : sig ≠ .SIGSTOP := fun hEq => hAttach p (hEq ▸ rfl)
    rcases Tracees.allows_signal hStatus hSig hAllows with hPhase | hPhase
    · have hNot : ¬ t.phase p = some .newborn := by simp [hPhase]
      refine h.turn (p := p) (.inl ⟨hPhase, rfl⟩) ?_ (fun q hq => ?_) hCloned hParked
      · rw [Tracees.phase_observe_signal hStatus hSig, if_neg hNot, Tracees.phase_setPhase,
          if_pos rfl, hPhase]
        rfl
      · rw [Tracees.phase_observe_signal hStatus hSig, if_neg hNot, Tracees.phase_setPhase,
          if_neg hq]
    · have hSame : t.observe r = t := by
        simp [Tracees.observe, hStatus, hSig, hPhase]
      rwa [hSame]

theorem ran (h : Placed s awaits t) (hPhase : t.phase p = some .released) :
    s.registered p = true ∧ (s.isScheduled p = true → s.current = some p) := by
  refine ⟨?_, fun hScheduled => h.single p hScheduled hPhase⟩
  by_contra hNot
  simp only [Bool.not_eq_true] at hNot
  exact (h.unregistered p hNot).1 hPhase

theorem attached {r : Report} {v : Supervisor} (h : Placed s awaits t) (hEffects : s.effects = [])
    (hStatus : r.status = .ok (.stopped p .SIGSTOP)) (hAllows : t.allows r = true)
    (hStart : p ∈ s.pendingStart)
    (hRelease : Dtrun.release k p { s with pendingStart := s.pendingStart.erase p } = .ok () v) :
    Placed v awaits ((t.observe r).after v) := by
  have hPhase := Tracees.allows_attach hStatus hAllows
  refine release ?_ ?_ hRelease
  · change Placed _ awaits ((t.observe r).after s)
    rw [Tracees.after_nil hEffects]
    refine h.attach hStart ?_ (fun q hq => ?_) (fun q c hq => Tracees.cloned_observe hq)
      (h.parked.observe hStatus rfl hAllows) (by simp [hPhase])
    · rw [Tracees.phase_observe_attach hStatus, Tracees.phase_setPhase, if_pos rfl, hPhase]
      rfl
    · rw [Tracees.phase_observe_attach hStatus, Tracees.phase_setPhase, if_neg hq]
  · exact (h.starting p hStart).1

theorem stopped {r : Report} {sig : Signal} (h : Placed s awaits t) (hEffects : s.effects = [])
    (hStatus : r.status = .ok (.stopped p sig)) (hAllows : t.allows r = true)
    (hStop : StopHandled r.answers p sig s s') : Placed s' awaits ((t.observe r).after s') := by
  cases hStop with
  | current hCurrent hSig hOk =>
    subst hSig
    have hPhase := Tracees.allows_attach hStatus hAllows
    rcases h.current p hCurrent with ⟨hScheduled, hStart⟩ | ⟨_, hGone⟩
    · exact absurd (h.newborn p (registered_of_isScheduled hScheduled) hPhase) hStart
    · simp [hPhase] at hGone
  | attached hCurrent hSig hStart hRelease =>
    subst hSig
    exact h.attached hEffects hStatus hAllows hStart hRelease
  | early hCurrent hSig hStart hUnknown =>
    subst hSig
    have hPhase := Tracees.allows_attach hStatus hAllows
    change Placed _ awaits ((t.observe r).after s)
    rw [Tracees.after_nil hEffects]
    refine h.seen hUnknown hPhase ?_ (fun q hq => ?_) (fun q c hq => Tracees.cloned_observe hq)
      (h.parked.observe hStatus rfl hAllows)
    · rw [Tracees.phase_observe_attach hStatus, Tracees.phase_setPhase, if_pos rfl, hPhase]
      rfl
    · rw [Tracees.phase_observe_attach hStatus, Tracees.phase_setPhase, if_neg hq]
  | again hCurrent hSig hStart hKnown =>
    subst hSig
    exact absurd (h.newborn p hKnown (Tracees.allows_attach hStatus hAllows)) hStart
  | signal hSig hOk hWho =>
    have hObserved := h.observe hStatus rfl (by simpa using hSig) hAllows
    rw [← Tracees.after_nil (t := t.observe r) hEffects] at hObserved
    refine hObserved.delivered sig fun hHeld => ?_
    rw [Tracees.after_nil hEffects, Tracees.phase_observe_signal hStatus hSig] at hHeld
    rcases Tracees.allows_signal hStatus hSig hAllows with hPhase | hPhase
    · exact h.ran hPhase
    · simp [hPhase] at hHeld
  | noted hSig hCurrent hWho hQuiet =>
    have hObserved := h.observe hStatus rfl (by simpa using hSig) hAllows
    rw [Tracees.after_of_quiet hQuiet, Tracees.after_nil hEffects]
    exact hObserved.quiet hQuiet

theorem dispatched {r : Report} {status : WaitStatus} {flow : Flow} (h : Placed s awaits t)
    (hUnique : t.Announced) (hEffects : s.effects = []) (hStatus : r.status = .ok status)
    (hAllows : t.allows r = true) (hDispatched : Dispatched r.answers s status flow s')
    (hFlow : ∀ code, flow ≠ .exit code) :
    Placed s' (flow.opened ++ awaits) ((t.observe r).after s') := by
  have observed (hAlive : status.death = none) (hAttach : ∀ q, status ≠ .stopped q .SIGSTOP) :
      Placed s awaits ((t.observe r).after s) := by
    rw [Tracees.after_nil hEffects]
    exact h.observe hStatus hAlive hAttach hAllows
  cases hDispatched with
  | finished hDeath hQuiet => exact absurd rfl (hFlow _)
  | @died _ p _ hDeath hOther hExit =>
    refine h.died hEffects ?_ (fun q hq => ?_) (fun q c hq => Tracees.cloned_observe hq) hExit
    · rw [Tracees.phase_observe_death hStatus hDeath, if_pos rfl]
    · rw [Tracees.phase_observe_death hStatus hDeath, if_neg hq]
  | @syscall p _ hHandled =>
    have hPhase := Tracees.allows_syscall hStatus hAllows
    obtain ⟨hKnown, hCurrent⟩ := h.ran hPhase
    refine (observed rfl (by simp)).syscall hKnown hCurrent ?_ hHandled
    rw [Tracees.after_nil hEffects, Tracees.Still, Tracees.phase_observe_syscall hStatus,
      Tracees.phase_setPhase, if_pos rfl, hPhase]
    exact .inl rfl
  | @clone p child sig event v _ _ hEvent hChild hRegister hFlow =>
    have hExit : event ≠ .exit := by
      rintro rfl
      cases hEvent
    have hCloned := Tracees.allows_creates hStatus hEvent hChild hAllows
    obtain ⟨hFresh, hCurrent⟩ := h.expected p child hCloned
    obtain ⟨hKnown, _⟩ := h.ran (Tracees.allows_event hStatus hExit hAllows)
    have hNone (q : Pid) : ((t.observe r).after s).cloned q ≠ some child := by
      rw [Tracees.after_nil hEffects]
      intro hq
      cases hUnique q p child (Tracees.cloned_observe hq) hCloned
      rw [Tracees.cloned_observe_creates hStatus hEvent] at hq
      cases hq
    have hObserved : Placed { s with clonePending := s.clonePending.erase p } awaits
        ((t.observe r).after s) := (observed rfl (by simp)).congr rfl rfl rfl rfl rfl rfl rfl
    obtain ⟨hAwait, hPlain, hParent⟩ :=
      registered (t := t.observe r) hObserved hFresh hCurrent hNone hKnown hRegister
    rcases hFlow with ⟨hStart, rfl, rfl⟩ | ⟨hStart, rfl, hResume⟩
    · exact hAwait hStart
    · exact (hPlain hStart).resumeTask (.inl hParent) hResume
  | @dying p sig hOk =>
    refine (observed rfl (by simp)).resumed fun hHeld => ?_
    rw [Tracees.after_nil hEffects, Tracees.phase_observe_dying hStatus, Tracees.phase_setPhase,
      if_pos rfl] at hHeld
    cases hPhase : t.phase p <;> simp [hPhase] at hHeld
  | @event p sig event _ hEvent hExit hResume =>
    obtain ⟨hKnown, _⟩ := h.ran (Tracees.allows_event hStatus hExit hAllows)
    exact (observed rfl (by simp)).resumeTask (.inl hKnown) hResume
  | @stopped p sig _ hStop => exact h.stopped hEffects hStatus hAllows hStop
  | idle hIdle =>
    rcases hIdle with ⟨p, rfl⟩ | rfl
    · exact observed rfl (by simp)
    · exact observed rfl (by simp)

theorem returned {r : Report} {w : Await} {v v' : Supervisor} (h : Placed s (w :: awaits) t)
    (hEffects : s.effects = []) (hStatus : r.status = .ok (.stopped w.child .SIGSTOP))
    (hAllows : t.allows r = true)
    (hRelease : Dtrun.release k w.child
      { s with pendingStart := s.pendingStart.erase w.child } = .ok () v)
    (hResume : Dtrun.resumeTask k w.parent v = .ok () v') :
    Placed v' awaits ((t.observe r).after v') := by
  have hPhase := Tracees.allows_attach hStatus hAllows
  have hStart : w.child ∈ s.pendingStart := by
    refine h.newborn _ ((h.awaited w List.mem_cons_self).1.resolve_right ?_) hPhase
    simp [hPhase]
  have hv := h.attached hEffects hStatus hAllows hStart hRelease
  have hAlive : ((t.observe r).after v).phase w.child ≠ none := by
    rw [ne_eq, Tracees.phase_after_eq_none, Tracees.phase_observe_attach hStatus,
      Tracees.phase_setPhase, if_pos rfl, hPhase]
    simp
  exact (hv.pop hAlive).resumeTask (hv.awaited w List.mem_cons_self).2 hResume

theorem passed {r : Report} {status : WaitStatus} {awaits' : List Await} (h : Placed s awaits t)
    (hUnique : t.Announced) (hEffects : s.effects = []) (hStatus : r.status = .ok status)
    (hAllows : t.allows r = true)
    (hPassed : Passed r.answers s awaits status (.wait awaits') s') :
    Placed s' awaits' ((t.observe r).after s') := by
  cases hPassed with
  | next hDispatched hTail =>
    exact (h.dispatched hUnique hEffects hStatus hAllows hDispatched (by simp)).runsOn hTail
  | again hOther hDispatched =>
    exact h.dispatched hUnique hEffects hStatus hAllows hDispatched (by simp)
  | await hDispatched => exact h.dispatched hUnique hEffects hStatus hAllows hDispatched (by simp)
  | @attached w _ v v' _ hRelease hResume hTail =>
    have hv' := h.returned hEffects hStatus hAllows hRelease hResume
    rcases hTail with ⟨_, hTail⟩ | ⟨_, rfl⟩
    · exact hv'.runsOn hTail
    · exact hv'

theorem fresh (pid : Pid) (seed : U64) : Placed (Machine.fresh pid seed) [] (World.alone pid) := by
  have known {q : Pid} (hq : (Machine.fresh pid seed).registered q = true) : q = pid := by
    by_contra hne
    simp [Supervisor.registered, Machine.fresh, Map.get_singleton, hne] at hq
  have phase (q : Pid) : (World.alone pid).phase q = if q = pid then some .held else none := by
    simp only [Tracees.phase, Tracees.task, World.alone, Map.get_singleton]
    split
    · rfl
    · rfl
  have cloned (q : Pid) : (World.alone pid).cloned q = none := by
    simp only [Tracees.cloned, Tracees.task, World.alone, Map.get_singleton]
    split
    · rfl
    · rfl
  have hIs : (Machine.fresh pid seed).isScheduled pid = true := by
    simp [isScheduled, Machine.fresh, Map.get_singleton]
  have hReg : (Machine.fresh pid seed).registered pid = true := registered_of_isScheduled hIs
  refine ⟨?_, List.nodup_singleton pid, fun q hq => ?_, fun q hq => ?_, fun q hq => ?_,
    fun q hq => ?_, fun q hq hPhase => ?_, fun q hq hPhase => ?_, fun q hq => ?_, fun q hq => ?_,
    fun q hq hPhase => ?_, fun w hw => ?_, fun q c hq => ?_⟩
  · exact .fresh pid seed _
  · obtain rfl := List.mem_singleton.mp hq
    exact ⟨hIs, (Option.some_ne_none q).symm, Finset.notMem_empty q, Finset.notMem_empty q,
      .inl (by simp [phase])⟩
  · exact absurd hq.symm (Option.some_ne_none q)
  · exact absurd hq (Finset.notMem_empty q)
  · rw [known (registered_of_isScheduled hq)]
    exact .inr (.inl List.mem_cons_self)
  · rw [phase] at hPhase
    split at hPhase
    · cases hPhase
    · cases hPhase
  · rw [phase] at hPhase
    split at hPhase
    · cases hPhase
    · cases hPhase
  · have hne : q ≠ pid := by
      rintro rfl
      rw [hReg] at hq
      cases hq
    simp [phase, hne]
  · exact absurd hq (Finset.notMem_empty q)
  · simp [phase, known hq] at hPhase
  · cases hw
  · rw [cloned] at hq
    cases hq

theorem same (h : Placed s awaits t) (hPhase : ∀ q, t'.phase q = t.phase q)
    (hCloned : ∀ q, t'.cloned q = t.cloned q) : Placed s awaits t' := by
  have still (q : Pid) : t'.Still q ↔ t.Still q := by simp only [Tracees.Still, hPhase]
  refine ⟨h.parked.phases fun q _ => hPhase q, h.nodup, ?_, ?_, ?_, h.placed, ?_, ?_, ?_, ?_, ?_, ?_,
    ?_⟩
  · simp only [still]
    exact h.runnable
  · simp only [hPhase]
    exact h.current
  · simp only [hPhase]
    exact h.starting
  · simp only [hPhase]
    exact h.single
  · simp only [hPhase]
    exact h.newborn
  · simp only [hPhase]
    exact h.unregistered
  · simp only [still]
    exact h.early
  · simp only [hPhase]
    exact h.absent
  · simp only [hPhase]
    exact h.awaited
  · simp only [hCloned]
    exact h.expected

theorem spawned {c : Pid} (h : Placed s awaits t) (hNone : t.phase c = none)
    (hPhase : ∀ q, t'.phase q = if q = c then some .newborn else t.phase q)
    (hCloned : ∀ q d, t'.cloned q = some d → t.cloned q = some d ∨ d = c)
    (hCurrent : s.current ≠ some c) (hAwaits : ∀ w ∈ awaits, w.child ≠ c ∧ w.parent ≠ c) :
    Placed s awaits t' := by
  have hNew : t'.phase c = some .newborn := by rw [hPhase, if_pos rfl]
  have hElse {q : Pid} (hne : q ≠ c) : t'.phase q = t.phase q := by rw [hPhase, if_neg hne]
  have still {q : Pid} (hStill : t.Still q) : q ≠ c ∧ t'.Still q := by
    have hne : q ≠ c := by
      rintro rfl
      exact hStill.ne_none hNone
    exact ⟨hne, hStill.congr (hElse hne)⟩
  have hFresh : s.registered c = false := by
    by_contra hKnown
    simp only [Bool.not_eq_false] at hKnown
    obtain ⟨w, hw, hChild⟩ := h.absent c hKnown hNone
    exact (hAwaits w hw).1 hChild
  have known {q : Pid} (hq : s.registered q = true) : q ≠ c := by
    rintro rfl
    rw [hq] at hFresh
    cases hFresh
  refine { h with
    parked := { h.parked with still := fun q hq => (still (h.parked.still q hq)).2 }
    runnable := fun q hq => ?_
    current := fun q hq => ?_
    starting := fun q hq => ?_
    single := fun q hScheduled hRan => ?_
    newborn := fun q hKnown hBorn => ?_
    unregistered := fun q hUnknown => ?_
    early := fun q hq => ⟨(h.early q hq).1, (still (h.early q hq).2).2⟩
    absent := fun q hKnown hGone => ?_
    awaited := fun w hw => ?_
    expected := fun q d hq => ?_ }
  · obtain ⟨hScheduled, hFree, hBlocked, hStart, hStill⟩ := h.runnable q hq
    exact ⟨hScheduled, hFree, hBlocked, hStart, (still hStill).2⟩
  · have hne : q ≠ c := fun hEq => hCurrent (hEq ▸ hq)
    rw [hElse hne]
    exact h.current q hq
  · rw [hElse (known (h.starting q hq).1)]
    exact h.starting q hq
  · have hne := known (registered_of_isScheduled hScheduled)
    exact h.single q hScheduled (hElse hne ▸ hRan)
  · exact h.newborn q hKnown (hElse (known hKnown) ▸ hBorn)
  · by_cases hEq : q = c
    · rw [hEq, hNew]
      simp
    · rw [hElse hEq]
      exact h.unregistered q hUnknown
  · exact h.absent q hKnown (hElse (known hKnown) ▸ hGone)
  · obtain ⟨hChild, hParent⟩ := hAwaits w hw
    rw [hElse hChild, hElse hParent]
    exact h.awaited w hw
  · rcases hCloned q d hq with hOld | rfl
    · exact h.expected q d hOld
    · exact ⟨hFresh, hCurrent⟩

end Placed

namespace World

/-- The pid of a new task is one that the supervisor does not hold for a task that is gone. -/
def Unheld (w : World) : Label → Prop
  | .spawn _ c _ _ => w.machine.sv.current ≠ some c ∧
      (∀ a ∈ w.machine.awaits, a.child ≠ c ∧ a.parent ≠ c) ∧ w.tracees.expects c = false
  | _ => True

instance (w : World) : (l : Label) → Decidable (w.Unheld l)
  | .spawn _ _ _ _ => inferInstanceAs (Decidable (_ ∧ _ ∧ _))
  | .exec _ | .report _ => .isTrue trivial

theorem announced {pid : Pid} {seed : U64} {w : World} (h : (system pid seed).Reach Unheld w) :
    w.tracees.Announced := by
  refine System.Reach.invariant (I := fun w => w.tracees.Announced) ?_ ?_ h
  · rintro _ ⟨k, rfl⟩ q q' c hq
    simp only [start, Tracees.cloned_after] at hq
    simp only [Tracees.cloned, Tracees.task, alone, Map.get_singleton] at hq
    split at hq
    · cases hq
    · cases hq
  · intro w l w' _ hUnique hOk hStep q q' c hq hq'
    cases l with
    | spawn p d thread vm =>
      obtain ⟨_, _, hNone⟩ := hOk
      have parent {q : Pid} (hq : w'.tracees.cloned q = some c) :
          (c = d ∧ q = p) ∨ (c ≠ d ∧ w.tracees.cloned q = some c) := by
        rw [spawn_cloned hStep] at hq
        split at hq
        · cases hq
        · split at hq
          · cases hq
            exact .inl ⟨rfl, by assumption⟩
          · refine .inr ⟨?_, hq⟩
            rintro rfl
            exact Tracees.cloned_ne_of_expects hNone q hq
      rcases parent hq with ⟨hc, hp⟩ | ⟨hc, hOld⟩
      · rcases parent hq' with ⟨_, hp'⟩ | ⟨hc', _⟩
        · rw [hp, hp']
        · exact absurd hc hc'
      · rcases parent hq' with ⟨hc', _⟩ | ⟨_, hOld'⟩
        · exact absurd hc' hc
        · exact hUnique q q' c hOld hOld'
    | exec p =>
      rw [exec_cloned hStep] at hq hq'
      exact hUnique q q' c hq hq'
    | report r =>
      obtain ⟨_, _, _, hTracees⟩ := observe_eq_some hStep
      rw [hTracees, Tracees.cloned_after] at hq hq'
      exact hUnique q q' c (Tracees.cloned_observe hq) (Tracees.cloned_observe hq')

/-- In every reachable world whose supervisor is still running, every scheduled thread has its
place. -/
theorem placed {pid : Pid} {seed : U64} {w : World} (h : (system pid seed).Reach Unheld w)
    (hOpen : w.machine.result = none) : Placed w.machine.sv w.machine.awaits w.tracees := by
  refine System.Reach.invariant (I := fun w => w.machine.result = none →
    Placed w.machine.sv w.machine.awaits w.tracees) ?_ ?_ h hOpen
  · rintro _ ⟨k, rfl⟩ hOpen
    obtain ⟨hAwaits, hPicks⟩ := Machine.start_wait hOpen
    have hFresh : Placed (Machine.fresh pid seed) [] ((alone pid).after (Machine.fresh pid seed)) :=
      .fresh pid seed
    have hStarted := hFresh.picks rfl hPicks
    rw [← hAwaits] at hStarted
    exact hStarted
  · intro w l w' hReach hPlaced hOk hStep hOpen
    cases l with
    | spawn p c thread vm =>
      obtain ⟨hCurrent, hAwaits, _⟩ := hOk
      have hMachine := spawn_machine hStep
      rw [hMachine] at hOpen ⊢
      obtain ⟨x, _, hChild, _⟩ := spawn_eq_some hStep
      have hGone : w.tracees.phase c = none := by simp [Tracees.phase, hChild]
      refine (hPlaced hOpen).spawned hGone (spawn_phase hStep) (fun q d hq => ?_) hCurrent hAwaits
      rw [spawn_cloned hStep] at hq
      split at hq
      · cases hq
      · split at hq
        · cases hq
          exact .inr rfl
        · exact .inl hq
    | exec p =>
      have hMachine := exec_machine hStep
      rw [hMachine] at hOpen ⊢
      exact (hPlaced hOpen).same (exec_phase hStep) (exec_cloned hStep)
    | report r =>
      obtain ⟨status, hRunning, hAllows, hStatus, hTracees, hPassed⟩ := observe_wait hStep hOpen
      rw [hTracees]
      have hRead : Placed { w.machine.sv with effects := [] } w.machine.awaits w.tracees :=
        (hPlaced hRunning).congr rfl rfl rfl rfl rfl rfl rfl
      exact hRead.passed (announced hReach) rfl hStatus hAllows hPassed

end World

end Dtrun
