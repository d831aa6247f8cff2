import Dtrun.Supervisor.Parking

/-! # Tasks on their way out

From its exit stop on a task reports nothing but its death. The death of a thread group's leader is
the last of its group, and that of the init ends the supervision.
-/
namespace Dtrun
set_option autoImplicit false
open FiniteMap StateExcept Transition Supervisor

variable {k : Answers} {s s' : Supervisor} {t : Tracees} {p q : Pid} {r : Report}

namespace Tracees

def Dying (t : Tracees) (p : Pid) : Prop :=
  t.phase p = some .exitStop ∨ t.phase p = some .exiting

instance (t : Tracees) (p : Pid) : Decidable (t.Dying p) :=
  inferInstanceAs (Decidable (_ ∨ _))

theorem dying_congr {t' : Tracees} (hPhase : t'.phase p = t.phase p) : t'.Dying p ↔ t.Dying p := by
  rw [Dying, Dying, hPhase]

theorem dying_resume : (t.resume q).Dying p ↔ t.Dying p := by
  rcases t.resume_cases q p with hSame | ⟨_, hBefore, hAfter⟩ | ⟨_, hBefore, hAfter⟩
  · exact dying_congr hSame
  · simp [Dying, hBefore, hAfter]
  · simp [Dying, hBefore, hAfter]

theorem dying_after : (t.after s).Dying p ↔ t.Dying p := by
  rw [after]
  induction s.effects generalizing t with
  | nil => exact .rfl
  | cons e rest ih =>
    refine ih.trans ?_
    cases e with
    | resume q sig => exact dying_resume
    | setregs q regs => exact .rfl
    | write q addr data => exact .rfl

theorem not_dying_setPhase_held (t : Tracees) (p : Pid) : ¬ (t.setPhase p .held).Dying p := by
  rw [Dying, phase_setPhase, if_pos rfl]
  cases t.phase p with
  | none => simp
  | some x => simp

theorem dying_of_observe (h : (t.observe r).Dying p) :
    t.Dying p ∨ ∃ sig, r.status = .ok (.ptraceEvent p sig .exit) := by
  have held {q : Pid} (hSame : (t.observe r).phase p = (t.setPhase q .held).phase p) :
      t.Dying p := by
    rw [dying_congr hSame] at h
    by_cases hEq : p = q
    · rw [hEq] at h
      exact absurd h (not_dying_setPhase_held t q)
    · exact (dying_congr (by rw [phase_setPhase, if_neg hEq])).mp h
  cases hStatus : r.status with
  | error e =>
    left
    simpa [observe, hStatus] using h
  | ok status =>
    cases status with
    | ptraceSyscall q => exact .inl (held (phase_observe_syscall hStatus p))
    | ptraceEvent q sig event =>
      by_cases hExit : event = .exit
      · subst hExit
        rw [dying_congr (phase_observe_dying hStatus p)] at h
        by_cases hEq : p = q
        · rw [hEq]
          exact .inr ⟨sig, rfl⟩
        · left
          exact (dying_congr (by rw [phase_setPhase, if_neg hEq])).mp h
      · exact .inl (held (phase_observe_event hStatus hExit p))
    | stopped q sig =>
      by_cases hSig : sig = .SIGSTOP
      · subst hSig
        exact .inl (held (phase_observe_attach hStatus p))
      · have hPhase := phase_observe_signal (t := t) hStatus hSig p
        split at hPhase
        · left
          rwa [dying_congr hPhase] at h
        · exact .inl (held hPhase)
    | exited q code =>
      have hPhase := phase_observe_death (t := t) hStatus rfl p
      split at hPhase
      · simp [Dying, hPhase] at h
      · left
        rwa [dying_congr hPhase] at h
    | signaled q sig core =>
      have hPhase := phase_observe_death (t := t) hStatus rfl p
      split at hPhase
      · simp [Dying, hPhase] at h
      · left
        rwa [dying_congr hPhase] at h
    | continued q =>
      left
      simpa [observe, hStatus] using h
    | stillAlive =>
      left
      simpa [observe, hStatus] using h

theorem allows_dying_task (h : t.Dying p) (hAllows : t.allows r = true) :
    r.status ≠ .ok (.ptraceSyscall p) ∧ (∀ sig event, r.status ≠ .ok (.ptraceEvent p sig event)) ∧
      ∀ sig, r.status ≠ .ok (.stopped p sig) := by
  have hPhase : t.phase p ≠ some .newborn ∧ t.phase p ≠ some .held ∧
      t.phase p ≠ some .released := by
    rcases h with h | h
    · simp [h]
    · simp [h]
  refine ⟨fun hStatus => hPhase.2.2 (allows_syscall hStatus hAllows), fun sig event hStatus => ?_,
    fun sig hStatus => ?_⟩
  · by_cases hExit : event = .exit
    · rw [hExit] at hStatus
      rcases allows_dying hStatus hAllows with h | h | h
      · exact hPhase.1 h
      · exact hPhase.2.1 h
      · exact hPhase.2.2 h
    · exact hPhase.2.2 (allows_event hStatus hExit hAllows)
  · by_cases hSig : sig = .SIGSTOP
    · rw [hSig] at hStatus
      exact hPhase.1 (allows_attach hStatus hAllows)
    · rcases allows_signal hStatus hSig hAllows with h | h
      · exact hPhase.2.2 h
      · exact hPhase.1 h

theorem dying_observe {status : WaitStatus} (h : t.Dying p) (hStatus : r.status = .ok status)
    (hAllows : t.allows r = true) (hAlive : status.death ≠ some p) : (t.observe r).Dying p := by
  obtain ⟨hCall, hEvent, hStop⟩ := allows_dying_task h hAllows
  rw [hStatus] at hCall hEvent hStop
  suffices hSame : (t.observe r).phase p = t.phase p from (dying_congr hSame).mpr h
  have elsewhere {q : Pid} (hne : q ≠ p) (x : Phase) : (t.setPhase q x).phase p = t.phase p := by
    rw [phase_setPhase, if_neg fun hEq => hne hEq.symm]
  cases status with
  | ptraceSyscall q =>
    have hne : q ≠ p := fun hEq => hCall (by rw [hEq])
    rw [phase_observe_syscall hStatus, elsewhere hne]
  | ptraceEvent q sig event =>
    have hne : q ≠ p := fun hEq => hEvent sig event (by rw [hEq])
    by_cases hExit : event = .exit
    · rw [hExit] at hStatus
      rw [phase_observe_dying hStatus, elsewhere hne]
    · rw [phase_observe_event hStatus hExit, elsewhere hne]
  | stopped q sig =>
    have hne : q ≠ p := fun hEq => hStop sig (by rw [hEq])
    by_cases hSig : sig = .SIGSTOP
    · rw [hSig] at hStatus
      rw [phase_observe_attach hStatus, elsewhere hne]
    · rw [phase_observe_signal hStatus hSig]
      split
      · rfl
      · exact elsewhere hne _
  | exited q code =>
    rw [phase_observe_death hStatus rfl, if_neg fun hEq => hAlive (by rw [hEq]; rfl)]
  | signaled q sig core =>
    rw [phase_observe_death hStatus rfl, if_neg fun hEq => hAlive (by rw [hEq]; rfl)]
  | continued q => simp only [observe, hStatus]
  | stillAlive => simp only [observe, hStatus]

/-! ### Thread groups and address spaces -/

/-- What a task has as long as it lives, whatever it reports. -/
def Lasting {α : Type} (f : Task → α) : Prop :=
  ∀ (x : Task) (phase : Phase) (cloned : Option Pid),
    f { x with phase := phase, cloned := cloned } = f x

def attr {α : Type} (f : Task → α) (t : Tracees) (p : Pid) : Option α := (t.task p).map f

section

variable {α : Type} {f : Task → α}

theorem attr_update (t : Tracees) (p q : Pid) {g : Task → Task} (hg : ∀ x, f (g x) = f x) :
    attr f (t.update p g) q = attr f t q := by
  rw [attr, task_update, attr]
  split
  · rename_i hEq
    rw [hEq]
    cases t.task p with
    | none => rfl
    | some x => exact congrArg some (hg x)
  · rfl

theorem attr_after (hf : Lasting f) (t : Tracees) (s : Supervisor) (q : Pid) :
    attr f (t.after s) q = attr f t q := by
  rw [after]
  induction s.effects generalizing t with
  | nil => rfl
  | cons e rest ih =>
    refine (ih (t.apply e)).trans ?_
    cases e with
    | resume p sig => exact attr_update t p q fun x => hf x _ x.cloned
    | setregs p regs => rfl
    | write p addr data => rfl

theorem attr_observe (hf : Lasting f) (t : Tracees) (r : Report) (q : Pid) :
    attr f (t.observe r) q = if r.death = some q then none else attr f t q := by
  have hSet (t : Tracees) (p : Pid) (x : Phase) : attr f (t.setPhase p x) q = attr f t q :=
    attr_update t p q fun y => hf y x y.cloned
  cases hStatus : r.status with
  | error e => simp [observe, Report.death, hStatus]
  | ok status =>
    cases status with
    | ptraceSyscall p =>
      simp only [observe, Report.death, hStatus, WaitStatus.death, reduceCtorEq, if_false]
      split
      · exact hSet t p .held
      · exact hSet t p .held
    | ptraceEvent p sig event =>
      have hTold : attr f ((t.setPhase p .held).update p fun x => { x with cloned := none }) q =
          attr f t q := (attr_update _ p q fun y => hf y y.phase none).trans (hSet t p .held)
      cases event <;>
        simp [observe, Report.death, hStatus, WaitStatus.death, Event.creates, hSet, hTold]
    | stopped p sig =>
      simp only [observe, Report.death, hStatus, WaitStatus.death, reduceCtorEq, if_false]
      split
      · rfl
      · exact hSet t p .held
    | exited p code =>
      simp only [observe, Report.death, hStatus, WaitStatus.death, attr, task, Map.get_erase,
        Option.some.injEq, eq_comm (a := p)]
      split
      · rfl
      · rfl
    | signaled p sig core =>
      simp only [observe, Report.death, hStatus, WaitStatus.death, attr, task, Map.get_erase,
        Option.some.injEq, eq_comm (a := p)]
      split
      · rfl
      · rfl
    | continued p => simp [observe, Report.death, hStatus, WaitStatus.death]
    | stillAlive => simp [observe, Report.death, hStatus, WaitStatus.death]

end

def group (t : Tracees) (p : Pid) : Option Pid := (t.task p).map Task.group

theorem group_lasting : Lasting Task.group := fun _ _ _ => rfl

theorem group_after (t : Tracees) (s : Supervisor) (q : Pid) :
    (t.after s).group q = t.group q := attr_after group_lasting t s q

theorem group_observe (t : Tracees) (r : Report) (q : Pid) :
    (t.observe r).group q = if r.death = some q then none else t.group q :=
  attr_observe group_lasting t r q

def space (t : Tracees) (p : Pid) : Option Nat := (t.task p).map Task.space

theorem space_lasting : Lasting Task.space := fun _ _ _ => rfl

theorem space_after (t : Tracees) (s : Supervisor) (q : Pid) :
    (t.after s).space q = t.space q := attr_after space_lasting t s q

theorem space_observe (t : Tracees) (r : Report) (q : Pid) :
    (t.observe r).space q = if r.death = some q then none else t.space q :=
  attr_observe space_lasting t r q

end Tracees

/-- Nobody else is the first to wait for the word that is cleared when `p` dies. -/
def Supervisor.clearsNobody (s : Supervisor) (p : Pid) : Bool :=
  match s.threads.get p with
  | some thread => thread.childTid = 0 ∨ thread.flags &&& CLONE_CHILD_CLEARTID = 0 ∨
      (s.parkedOn thread.childTid).head?.all (fun q => q = p)
  | none => true

theorem clearTidWake_runnable (hQueued : s.Queued) (thread : Thread) :
    (s.clearTidWake thread).runnable = s.runnable ++
      if thread.childTid ≠ 0 ∧ thread.flags &&& CLONE_CHILD_CLEARTID ≠ 0 then
        (s.parkedOn thread.childTid).head?.toList else [] := by
  simp only [clearTidWake]
  split
  · rw [(wake_unparked hQueued thread.childTid 1).runnable, wakeCount]
    cases s.parkedOn thread.childTid with
    | nil => simp
    | cons first rest =>
      simp
  · simp

theorem onThreadExit_joins (hQueued : s.Queued) (p : Pid) (record : Bool) : ∃ joined,
    (s.onThreadExit p record).runnable = (s.runnable.filter fun q => q ≠ p) ++ joined ∧
      (joined = [] ↔ s.clearsNobody p = true) := by
  cases hLookup : s.threads.get p with
  | none =>
    refine ⟨[], ?_, by simp [clearsNobody, hLookup]⟩
    simp only [onThreadExit, hLookup, forget, List.append_nil]
  | some thread =>
    have hErased : Queued { s with threads := s.threads.erase p } := hQueued.congr rfl rfl
    have hWake := clearTidWake_runnable hErased thread
    have hLeft : (s.onThreadExit p record).runnable =
        (({ s with threads := s.threads.erase p } : Supervisor).clearTidWake thread).runnable.filter
          fun q => q ≠ p := by
      simp only [onThreadExit, hLookup]
      cases record with
      | true => rfl
      | false => rfl
    rw [hWake, List.filter_append] at hLeft
    refine ⟨_, hLeft, ?_⟩
    simp only [clearsNobody, hLookup, decide_eq_true_eq]
    split
    · rename_i hClears
      change (s.parkedOn thread.childTid).head?.toList.filter _ = [] ↔ _
      cases hFirst : (s.parkedOn thread.childTid).head? with
      | none => simp
      | some first =>
        rw [or_iff_right hClears.1, or_iff_right hClears.2]
        by_cases hSelf : first = p
        · simp [hSelf]
        · simp [hSelf]
    · rename_i hClears
      have hEither : thread.childTid = 0 ∨ thread.flags &&& CLONE_CHILD_CLEARTID = 0 := by
        by_contra hNeither
        exact hClears (not_or.mp hNeither)
      exact iff_of_true rfl (hEither.imp_right .inl)

theorem onThreadExit_runnable (hQueued : s.Queued) (hNobody : s.clearsNobody p = true)
    (record : Bool) : (s.onThreadExit p record).runnable = s.runnable.filter fun q => q ≠ p := by
  obtain ⟨joined, hJoined, hNone⟩ := onThreadExit_joins hQueued p record
  rw [hJoined, hNone.mpr hNobody, List.append_nil]

theorem Machine.step_done {m : Machine} {code : Int} (hOpen : m.result = none)
    (hDone : (m.step r).result = some (.ok code)) :
    ∃ status, r.status = .ok status ∧ status.death = some m.sv.pid ∧ code = status.exitCode := by
  simp only [Machine.step, hOpen, handle] at hDone
  cases hStatus : r.status with
  | error e => simp [hStatus, settle] at hDone
  | ok status =>
    simp only [hStatus] at hDone
    cases hPass : pass r.answers m.awaits status { m.sv with effects := [] } with
    | error e v => simp [hPass, settle] at hDone
    | ok turn v =>
      cases turn with
      | wait awaits => simp [hPass, settle] at hDone
      | done code' =>
        simp only [hPass, settle, Option.some.injEq, Except.ok.injEq] at hDone
        subst hDone
        have hPassed := pass_ok hPass
        generalize m.awaits = awaits at hPassed
        cases hPassed with
        | finish h =>
          cases h with
          | finished hDeath _ => exact ⟨status, rfl, hDeath, rfl⟩
          | clone _ _ _ hFlow =>
            rcases hFlow with ⟨_, hExit, _⟩ | ⟨_, hExit, _⟩
            · cases hExit
            · cases hExit

namespace World

/-- A leader is reported dead after the other tasks of its thread group. -/
def LeaderLast (w : World) : Label → Prop
  | .report r =>
    r.death.all (fun p => w.tracees.tasks.entries.all fun e => e.1 = p ∨ e.2.group ≠ p) = true
  | _ => True

instance (w : World) : (l : Label) → Decidable (w.LeaderLast l)
  | .spawn _ _ _ _ | .exec _ => .isTrue trivial
  | .report _ => inferInstanceAs (Decidable (_ = _))

theorem spawn_group {w w' : World} {c : Pid} {thread vm : Bool}
    (h : w.spawn p c thread vm = some w') (q : Pid) : w'.tracees.group q =
      if q = c then (if thread then w.tracees.group p else some c) else w.tracees.group q := by
  obtain ⟨x, hParent, hChild, _, _, _, rfl⟩ := spawn_eq_some h
  have hGroup : w.tracees.group p = some x.group := by simp [Tracees.group, hParent]
  simp only [Tracees.group, Tracees.task, Map.get_insert] at hGroup ⊢
  split
  · split
    · exact hGroup.symm
    · rfl
  · split
    · rename_i hEq
      rw [hEq]
      exact hGroup.symm
    · rfl

theorem exec_group {w w' : World} (h : w.exec p = some w') (q : Pid) :
    w'.tracees.group q = w.tracees.group q := by
  obtain ⟨x, hTask, _, _, _, rfl⟩ := exec_eq_some h
  simp only [Tracees.group, Tracees.task, Map.get_insert]
  split
  · rename_i hEq
    rw [hEq]
    exact (congrArg (Option.map Task.group) hTask).symm
  · rfl

theorem spawn_space {w w' : World} {c : Pid} {thread vm : Bool}
    (h : w.spawn p c thread vm = some w') (q : Pid) : w'.tracees.space q =
      if q = c then (if vm then w.tracees.space p else some w.tracees.spaces)
      else w.tracees.space q := by
  obtain ⟨x, hParent, hChild, _, _, _, rfl⟩ := spawn_eq_some h
  have hSpace : w.tracees.space p = some x.space := by simp [Tracees.space, hParent]
  simp only [Tracees.space, Tracees.task, Map.get_insert] at hSpace ⊢
  split
  · cases vm with
    | true => exact hSpace.symm
    | false => rfl
  · split
    · rename_i hEq
      rw [hEq]
      exact hSpace.symm
    · rfl

theorem exec_space {w w' : World} (h : w.exec p = some w') (q : Pid) :
    w'.tracees.space q = if q = p then some w.tracees.spaces else w.tracees.space q := by
  obtain ⟨x, hTask, _, _, _, rfl⟩ := exec_eq_some h
  simp only [Tracees.space, Tracees.task, Map.get_insert]
  split
  · rfl
  · rfl

theorem LeaderLast.alone {w : World} (h : w.LeaderLast (.report r)) (hDeath : r.death = some p)
    (hne : q ≠ p) : w.tracees.group q ≠ some p := by
  intro hGroup
  obtain ⟨x, hTask, hEq⟩ := Option.map_eq_some_iff.mp hGroup
  simp only [LeaderLast, hDeath, Option.all_some, List.all_eq_true] at h
  have hOne := h ⟨q, x⟩ (Map.get_eq_some_iff.mp hTask)
  simp only [decide_eq_true_eq] at hOne
  exact hOne.elim hne fun hOther => hOther hEq

/-- When supervision has ended well, nobody of the init's thread group is left. -/
theorem LeaderLast.returns {w w' : World} {code : Int} (h : w.LeaderLast (.report r))
    (hStep : w.observe r = some w') (hDone : w'.machine.result = some (.ok code)) (q : Pid) :
    w'.tracees.group q ≠ some w.machine.sv.pid := by
  obtain ⟨hRunning, _, hMachine, hTracees⟩ := observe_eq_some hStep
  rw [hMachine] at hDone
  obtain ⟨status, hStatus, hDeath, _⟩ := Machine.step_done hRunning hDone
  have hReport : r.death = some w.machine.sv.pid := by simpa only [Report.death, hStatus] using hDeath
  rw [hTracees, Tracees.group_after, Tracees.group_observe, hReport]
  split
  · simp
  · rename_i hne
    exact h.alone hReport fun hEq => hne (by rw [hEq])

end World

end Dtrun
