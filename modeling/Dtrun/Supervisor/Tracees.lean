import Dtrun.Library.Transition
import Dtrun.Supervisor.Passes

/-! # The traced tasks, and the supervisor among them

What the kernel promises about statuses: a task reports only after it was released, at its attach
stop, or because it is being killed; the one `SIGSTOP` stop of a task is its attach stop; a task
that leaves is reported under its own pid. Everything else is left open: which tasks exist, what
they call, when they are killed, which pending status comes next, what the registers and the memory
hold, whether a request is refused, and which free pid a new task is given.
-/
namespace Dtrun
set_option autoImplicit false
open FiniteMap Transition

/-- Where a task is on its way from the attach stop to its death. -/
inductive Phase where
  /-- The attach stop is still to be reported. -/
  | newborn
  /-- In a stop that was reported. -/
  | held
  | released
  /-- In the `PTRACE_EVENT_EXIT` stop. -/
  | exitStop
  /-- Past that stop: only the death is still to be reported. -/
  | exiting
  deriving DecidableEq

def Phase.resume : Phase → Phase
  | .held => .released
  | .exitStop => .exiting
  | phase => phase

structure Task where
  /-- The thread group. -/
  group : Pid
  /-- The address space. -/
  space : Nat
  phase : Phase
  /-- The child whose clone event this task has still to report. -/
  cloned : Option Pid
  deriving DecidableEq

structure Tracees where
  tasks : PidMap Task
  /-- The number of address spaces handed out. -/
  spaces : Nat
  /-- The thread groups a thread of which has entered `exit_group`. -/
  exited : List Pid

namespace Tracees

def task (t : Tracees) (p : Pid) : Option Task := t.tasks.get p

def phase (t : Tracees) (p : Pid) : Option Phase := (t.task p).map Task.phase

def cloned (t : Tracees) (p : Pid) : Option Pid := (t.task p).bind Task.cloned

/-- Some task has still to report that it created `c`. -/
def expects (t : Tracees) (c : Pid) : Bool := t.tasks.entries.any fun e => e.2.cloned = some c

def update (t : Tracees) (p : Pid) (f : Task → Task) : Tracees :=
  match t.task p with
  | some x => { t with tasks := t.tasks.insert p (f x) }
  | none => t

def setPhase (t : Tracees) (p : Pid) (phase : Phase) : Tracees :=
  t.update p fun x => { x with phase := phase }

def resume (t : Tracees) (p : Pid) : Tracees :=
  t.update p fun x => { x with phase := x.phase.resume }

def apply (t : Tracees) : Effect → Tracees
  | .resume p _ => t.resume p
  | _ => t

def applyAll (t : Tracees) (effects : List Effect) : Tracees := effects.foldl apply t

/-- Whether `r` is what the kernel may report next. -/
def allows (t : Tracees) (r : Report) : Bool :=
  match r.status with
  | .ok (.ptraceSyscall p) => match t.task p with
    | some x => x.phase = .released ∧ x.cloned = none
    | none => false
  | .ok (.ptraceEvent p _ .exit) => match t.task p with
    | some x => x.phase = .newborn ∨ x.phase = .held ∨ x.phase = .released
    | none => false
  | .ok (.ptraceEvent p _ event) => match t.task p with
    | some x => x.phase = .released ∧
        if event.creates then
          match x.cloned, r.answers.getevent p with
          | some c, .ok c' => c = c'
          | _, _ => false
        else true
    | none => false
  | .ok (.stopped p sig) => match t.task p with
    | some x => if sig = .SIGSTOP then x.phase = .newborn
        else x.phase = .released ∨ x.phase = .newborn
    | none => false
  | .ok (.exited p _) | .ok (.signaled p _ _) => (t.task p).isSome
  | .ok (.continued _) | .ok .stillAlive | .error _ => true

/-- The number is one of the 64-bit ABI; like the supervisor, this does not look at the arch. -/
def entersExitGroup (r : Report) (p : Pid) : Bool :=
  match r.answers.syscallInfo p, r.answers.getregs p with
  | .ok .entry, .ok regs => regs.origRax.toInt = SYS_exit_group
  | _, _ => false

def observe (t : Tracees) (r : Report) : Tracees :=
  match r.status with
  | .ok (.ptraceSyscall p) =>
    let t := t.setPhase p .held
    if entersExitGroup r p then
      { t with exited := ((t.task p).map Task.group).toList ++ t.exited }
    else t
  | .ok (.ptraceEvent p _ .exit) => t.setPhase p .exitStop
  | .ok (.ptraceEvent p _ event) =>
    let t := t.setPhase p .held
    if event.creates then
      t.update p fun x => { x with cloned := none }
    else t
  | .ok (.stopped p sig) =>
    if sig ≠ .SIGSTOP ∧ t.phase p = some .newborn then t else t.setPhase p .held
  | .ok (.exited p _) | .ok (.signaled p _ _) => { t with tasks := t.tasks.erase p }
  | .ok (.continued _) | .ok .stillAlive | .error _ => t

/-- The tasks as a state of the supervisor has left them, in which the effects of the pass so far
are noted. -/
def after (t : Tracees) (s : Supervisor) : Tracees := t.applyAll s.effects

variable {t : Tracees} {s s' : Supervisor}

theorem cloned_ne_of_expects {c : Pid} (h : t.expects c = false) (q : Pid) :
    t.cloned q ≠ some c := by
  intro hq
  cases hTask : t.task q with
  | none => simp [cloned, hTask] at hq
  | some x =>
    have hNot := List.any_eq_false.mp h ⟨q, x⟩ (Map.get_eq_some_iff.mp hTask)
    simp_all [cloned]

theorem task_update (t : Tracees) (p q : Pid) (f : Task → Task) :
    (t.update p f).task q = if q = p then (t.task p).map f else t.task q := by
  cases hTask : t.task p with
  | none =>
    simp only [update, hTask, Option.map_none]
    split
    · rename_i hEq
      rw [hEq, hTask]
    · rfl
  | some x =>
    simp only [update, hTask, Option.map_some]
    exact Map.get_insert t.tasks p q (f x)

theorem phase_update (t : Tracees) (p q : Pid) (f : Task → Task) :
    (t.update p f).phase q = if q = p then (t.task p).map fun x => (f x).phase else t.phase q := by
  rw [phase, task_update]
  split
  · exact Option.map_map _ _ _
  · rfl

theorem phase_setPhase (t : Tracees) (p q : Pid) (x : Phase) :
    (t.setPhase p x).phase q = if q = p then (t.phase p).map fun _ => x else t.phase q := by
  rw [setPhase, phase_update, phase, phase, Option.map_map]
  rfl

theorem phase_resume (t : Tracees) (p q : Pid) :
    (t.resume p).phase q = if q = p then (t.phase p).map Phase.resume else t.phase q := by
  rw [resume, phase_update, phase, phase, Option.map_map]
  rfl

theorem cloned_resume (t : Tracees) (p q : Pid) : (t.resume p).cloned q = t.cloned q := by
  rw [cloned, resume, task_update]
  split
  · rename_i hEq
    rw [cloned, hEq]
    cases t.task p with
    | none => rfl
    | some x => rfl
  · rfl

/-- A resume turns a held task into a released one and a task in its exit stop into an exiting one,
and does nothing else. -/
theorem resume_cases (t : Tracees) (p q : Pid) :
    (t.resume p).phase q = t.phase q ∨
      (q = p ∧ t.phase q = some .held ∧ (t.resume p).phase q = some .released) ∨
      (q = p ∧ t.phase q = some .exitStop ∧ (t.resume p).phase q = some .exiting) := by
  rw [phase_resume]
  split
  · rename_i hEq
    rw [← hEq]
    cases t.phase q with
    | none => exact .inl rfl
    | some x =>
      cases x with
      | newborn => exact .inl rfl
      | held => exact .inr (.inl ⟨rfl, rfl, rfl⟩)
      | released => exact .inl rfl
      | exitStop => exact .inr (.inr ⟨rfl, rfl, rfl⟩)
      | exiting => exact .inl rfl
  · exact .inl rfl

theorem resume_phase_ne {p q : Pid} (h : q ≠ p) : (t.resume p).phase q = t.phase q := by
  rw [phase_resume, if_neg h]

theorem applyAll_append (t : Tracees) (a b : List Effect) :
    t.applyAll (a ++ b) = (t.applyAll a).applyAll b := List.foldl_append

theorem applyAll_filter (t : Tracees) (effects : List Effect) :
    t.applyAll (effects.filter Effect.isResume) = t.applyAll effects := by
  induction effects generalizing t with
  | nil => rfl
  | cons e rest ih =>
    cases e with
    | resume p sig => exact ih _
    | setregs p regs => exact ih _
    | write p addr data => exact ih _

theorem phase_after_eq_none (t : Tracees) (s : Supervisor) (q : Pid) :
    (t.after s).phase q = none ↔ t.phase q = none := by
  rw [after]
  induction s.effects generalizing t with
  | nil => rfl
  | cons e rest ih =>
    refine (ih (t.apply e)).trans ?_
    cases e with
    | resume p sig =>
      change (t.resume p).phase q = none ↔ _
      rw [phase_resume]
      split
      · rename_i hEq
        simp [hEq]
      · rfl
    | setregs p regs => rfl
    | write p addr data => rfl

theorem cloned_after (t : Tracees) (s : Supervisor) (q : Pid) :
    (t.after s).cloned q = t.cloned q := by
  rw [after]
  induction s.effects generalizing t with
  | nil => rfl
  | cons e rest ih =>
    refine (ih (t.apply e)).trans ?_
    cases e with
    | resume p sig => exact cloned_resume t p q
    | setregs p regs => rfl
    | write p addr data => rfl

theorem exited_update (t : Tracees) (p : Pid) (f : Task → Task) :
    (t.update p f).exited = t.exited := by
  simp only [update]
  split
  · rfl
  · rfl

theorem exited_after (t : Tracees) (s : Supervisor) : (t.after s).exited = t.exited := by
  rw [after]
  induction s.effects generalizing t with
  | nil => rfl
  | cons e rest ih =>
    refine (ih (t.apply e)).trans ?_
    cases e with
    | resume p sig => exact exited_update t p _
    | setregs p regs => rfl
    | write p addr data => rfl

theorem after_of_quiet (h : Quiet s s') : t.after s' = t.after s := by
  rw [after, after, ← applyAll_filter, h.resumes, applyAll_filter]

theorem after_of_effects (h : s'.effects = s.effects) : t.after s' = t.after s := by
  rw [after, after, h]

theorem after_nil (h : s.effects = []) : t.after s = t := by
  rw [after, h]
  rfl

theorem after_resumed (t : Tracees) (s : Supervisor) (p : Pid) :
    t.after (s.resumed p) = (t.after s).resume p := applyAll_append t s.effects _

theorem after_delivered (t : Tracees) (s : Supervisor) (p : Pid) (sig : Signal) :
    t.after (s.delivered p sig) = (t.after s).resume p := applyAll_append t s.effects _

/-- The task is stopped or past its end, whoever is resumed in the meantime. -/
def Still (t : Tracees) (p : Pid) : Prop :=
  t.phase p = some .held ∨ t.phase p = some .exitStop ∨ t.phase p = some .exiting

theorem Still.congr {t' : Tracees} {p : Pid} (h : t.Still p) (hPhase : t'.phase p = t.phase p) :
    t'.Still p := by
  rwa [Still, hPhase]

theorem Still.resume {p q : Pid} (h : t.Still p) (hp : q = p → t.phase p ≠ some .held) :
    (t.resume q).Still p := by
  by_cases hEq : p = q
  · rcases h with hHeld | hStop | hPast
    · exact absurd hHeld (hp hEq.symm)
    · refine .inr (.inr ?_)
      rw [phase_resume, if_pos hEq, ← hEq, hStop]
      rfl
    · refine .inr (.inr ?_)
      rw [phase_resume, if_pos hEq, ← hEq, hPast]
      rfl
  · exact h.congr (resume_phase_ne hEq)

/-! ## What a status says about the phase of its task -/

theorem allows_syscall {r : Report} {p : Pid} (hStatus : r.status = .ok (.ptraceSyscall p))
    (h : t.allows r = true) : t.phase p = some .released := by
  simp only [allows, hStatus] at h
  cases hTask : t.task p with
  | none => simp [hTask] at h
  | some x => simp_all [phase]

theorem allows_event {r : Report} {p : Pid} {sig : Signal} {event : Event}
    (hStatus : r.status = .ok (.ptraceEvent p sig event)) (hEvent : event ≠ .exit)
    (h : t.allows r = true) : t.phase p = some .released := by
  cases hTask : t.task p with
  | none => cases event <;> simp_all [allows]
  | some x => cases event <;> simp_all [allows, phase]

theorem allows_creates {r : Report} {p child : Pid} {sig : Signal} {event : Event}
    (hStatus : r.status = .ok (.ptraceEvent p sig event)) (hEvent : event.creates = true)
    (hChild : r.answers.getevent p = .ok child) (h : t.allows r = true) :
    t.cloned p = some child := by
  cases hTask : t.task p with
  | none => cases event <;> simp_all [allows]
  | some x =>
    simp only [cloned, hTask, Option.bind_some]
    cases hCloned : x.cloned with
    | none => cases event <;> simp_all [allows, Event.creates]
    | some c => cases event <;> simp_all [allows, Event.creates]

theorem allows_dying {r : Report} {p : Pid} {sig : Signal}
    (hStatus : r.status = .ok (.ptraceEvent p sig .exit)) (h : t.allows r = true) :
    t.phase p = some .newborn ∨ t.phase p = some .held ∨ t.phase p = some .released := by
  simp only [allows, hStatus] at h
  cases hTask : t.task p with
  | none => simp [hTask] at h
  | some x => simp_all [phase]

theorem allows_attach {r : Report} {p : Pid} (hStatus : r.status = .ok (.stopped p .SIGSTOP))
    (h : t.allows r = true) : t.phase p = some .newborn := by
  simp only [allows, hStatus] at h
  cases hTask : t.task p with
  | none => simp [hTask] at h
  | some x => simp_all [phase]

theorem allows_signal {r : Report} {p : Pid} {sig : Signal}
    (hStatus : r.status = .ok (.stopped p sig)) (hSig : sig ≠ .SIGSTOP) (h : t.allows r = true) :
    t.phase p = some .released ∨ t.phase p = some .newborn := by
  simp only [allows, hStatus] at h
  cases hTask : t.task p with
  | none => simp [hTask] at h
  | some x => simp_all [phase]

theorem phase_observe_syscall {r : Report} {p : Pid}
    (hStatus : r.status = .ok (.ptraceSyscall p)) (q : Pid) :
    (t.observe r).phase q = (t.setPhase p .held).phase q := by
  simp only [observe, hStatus]
  split
  · rfl
  · rfl

theorem phase_observe_event {r : Report} {p : Pid} {sig : Signal} {event : Event}
    (hStatus : r.status = .ok (.ptraceEvent p sig event)) (hEvent : event ≠ .exit) (q : Pid) :
    (t.observe r).phase q = (t.setPhase p .held).phase q := by
  have hSame : (t.observe r).phase q = (if event.creates then
      (t.setPhase p .held).update p (fun x => { x with cloned := none }) else
      t.setPhase p .held).phase q := by
    cases event <;> simp_all [observe]
  rw [hSame]
  split
  · rw [phase_update]
    split
    · rename_i hEq
      rw [hEq]
      rfl
    · rfl
  · rfl

theorem phase_observe_dying {r : Report} {p : Pid} {sig : Signal}
    (hStatus : r.status = .ok (.ptraceEvent p sig .exit)) (q : Pid) :
    (t.observe r).phase q = (t.setPhase p .exitStop).phase q := by
  simp only [observe, hStatus]

theorem phase_observe_attach {r : Report} {p : Pid}
    (hStatus : r.status = .ok (.stopped p .SIGSTOP)) (q : Pid) :
    (t.observe r).phase q = (t.setPhase p .held).phase q := by
  simp [observe, hStatus]

theorem phase_observe_signal {r : Report} {p : Pid} {sig : Signal}
    (hStatus : r.status = .ok (.stopped p sig)) (hSig : sig ≠ .SIGSTOP) (q : Pid) :
    (t.observe r).phase q =
      if t.phase p = some .newborn then t.phase q else (t.setPhase p .held).phase q := by
  simp only [observe, hStatus, hSig, ne_eq, not_false_eq_true, true_and]
  split
  · rfl
  · rfl

theorem phase_observe_death {r : Report} {status : WaitStatus} {p : Pid}
    (hStatus : r.status = .ok status) (hDeath : status.death = some p) (q : Pid) :
    (t.observe r).phase q = if q = p then none else t.phase q := by
  cases status <;> simp_all [WaitStatus.death, observe, phase, task, Map.get_erase]
  · split <;> rfl
  · split <;> rfl

theorem cloned_setPhase (t : Tracees) (p q : Pid) (x : Phase) :
    (t.setPhase p x).cloned q = t.cloned q := by
  rw [cloned, setPhase, task_update]
  split
  · rename_i hEq
    rw [cloned, hEq]
    cases t.task p with
    | none => rfl
    | some x => rfl
  · rfl

theorem cloned_report (t : Tracees) (p q : Pid) :
    (t.update p fun x => { x with cloned := none }).cloned q =
      if q = p then none else t.cloned q := by
  rw [cloned, task_update]
  split
  · cases t.task p with
    | none => rfl
    | some x => rfl
  · rfl

theorem cloned_observe {r : Report} {q c : Pid} (h : (t.observe r).cloned q = some c) :
    t.cloned q = some c := by
  cases hStatus : r.status with
  | error e => simpa [observe, hStatus] using h
  | ok status =>
    cases status with
    | ptraceSyscall p =>
      have hSame : (t.observe r).cloned q = (t.setPhase p .held).cloned q := by
        simp only [observe, hStatus]
        split
        · rfl
        · rfl
      rwa [hSame, cloned_setPhase] at h
    | ptraceEvent p sig event =>
      by_cases hExit : event = .exit
      · subst hExit
        simpa [observe, hStatus, cloned_setPhase] using h
      · have hSame : (t.observe r).cloned q = (if event.creates then
            (t.setPhase p .held).update p (fun x => { x with cloned := none }) else
            t.setPhase p .held).cloned q := by
          cases event <;> simp_all [observe]
        rw [hSame] at h
        split at h
        · rw [cloned_report] at h
          split at h
          · cases h
          · rwa [cloned_setPhase] at h
        · rwa [cloned_setPhase] at h
    | stopped p sig =>
      simp only [observe, hStatus] at h
      split at h
      · exact h
      · rwa [cloned_setPhase] at h
    | exited p code =>
      simp only [observe, hStatus, cloned, task, Map.get_erase] at h
      split at h
      · cases h
      · exact h
    | signaled p sig core =>
      simp only [observe, hStatus, cloned, task, Map.get_erase] at h
      split at h
      · cases h
      · exact h
    | continued p => simpa [observe, hStatus] using h
    | stillAlive => simpa [observe, hStatus] using h

theorem cloned_observe_creates {r : Report} {p : Pid} {sig : Signal} {event : Event}
    (hStatus : r.status = .ok (.ptraceEvent p sig event)) (hEvent : event.creates = true) :
    (t.observe r).cloned p = none := by
  have hSame : (t.observe r).cloned p =
      ((t.setPhase p .held).update p fun x => { x with cloned := none }).cloned p := by
    cases event <;> simp_all [observe, Event.creates]
  rw [hSame, cloned_report, if_pos rfl]

end Tracees

/-- What happens next in the kernel or in the supervisor. -/
inductive Label where
  /-- Task `p` creates task `c`, in its own thread group or not, sharing its memory or not. -/
  | spawn (p c : Pid) (thread vm : Bool)
  /-- A task that is alone in its thread group replaces its memory. -/
  | exec (p : Pid)
  | report (r : Report)

structure World where
  machine : Machine
  tracees : Tracees

namespace World

/-- The init alone, held in the stop it was handed over in. -/
def alone (pid : Pid) : Tracees where
  tasks := AList.singleton pid ⟨pid, 0, .held, none⟩
  spaces := 1
  exited := []

def start (pid : Pid) (seed : U64) (k : Answers) : World where
  machine := Machine.start pid seed k
  tracees := (alone pid).after (Machine.start pid seed k).sv

def spawn (w : World) (p c : Pid) (thread vm : Bool) : Option World :=
  match w.tracees.task p, w.tracees.task c with
  | some x, none =>
    if x.phase = .released ∧ x.cloned = none ∧ (thread → vm) then
      let child : Task :=
        { group := if thread then x.group else c
          space := if vm then x.space else w.tracees.spaces
          phase := .newborn
          cloned := none }
      some { w with tracees := { w.tracees with
        tasks := (w.tracees.tasks.insert p { x with cloned := some c }).insert c child
        spaces := w.tracees.spaces + 1 } }
    else none
  | _, _ => none

/-- `execve` by a task that is alone in its thread group; in a larger group it first ends all other
threads. -/
def exec (w : World) (p : Pid) : Option World :=
  match w.tracees.task p with
  | some x =>
    if x.phase = .released ∧ x.cloned = none ∧
        w.tracees.tasks.entries.all fun e => e.1 = p ∨ e.2.group ≠ x.group then
      some { w with tracees := { w.tracees with
        tasks := w.tracees.tasks.insert p { x with space := w.tracees.spaces }
        spaces := w.tracees.spaces + 1 } }
    else none
  | none => none

def observe (w : World) (r : Report) : Option World :=
  match w.machine.result with
  | some _ => none
  | none =>
    if w.tracees.allows r then
      some {
        machine := w.machine.step r
        tracees := (w.tracees.observe r).after (w.machine.step r).sv }
    else none

def step (w : World) : Label → Option World
  | .spawn p c thread vm => w.spawn p c thread vm
  | .exec p => w.exec p
  | .report r => w.observe r

/-- The supervisor with the container it was started for. -/
def system (pid : Pid) (seed : U64) : System World Label where
  init w := ∃ k, w = start pid seed k
  step := step

variable {w w' : World} {p c : Pid}

theorem spawn_eq_some {thread vm : Bool} (h : w.spawn p c thread vm = some w') :
    ∃ x, w.tracees.task p = some x ∧ w.tracees.task c = none ∧ x.phase = .released ∧
      x.cloned = none ∧ (thread → vm) ∧
      w' = { w with tracees := { w.tracees with
        tasks := (w.tracees.tasks.insert p { x with cloned := some c }).insert c
          { group := if thread then x.group else c
            space := if vm then x.space else w.tracees.spaces
            phase := .newborn
            cloned := none }
        spaces := w.tracees.spaces + 1 } } := by
  simp only [spawn] at h
  cases hParent : w.tracees.task p with
  | none => simp [hParent] at h
  | some x =>
    cases hChild : w.tracees.task c with
    | some y => simp [hParent, hChild] at h
    | none =>
      simp only [hParent, hChild] at h
      split at h
      · rename_i hAllowed
        obtain ⟨hReleased, hCloned, hMem⟩ := hAllowed
        cases h
        exact ⟨x, rfl, rfl, hReleased, hCloned, hMem, rfl⟩
      · cases h

theorem spawn_machine {thread vm : Bool} (h : w.spawn p c thread vm = some w') :
    w'.machine = w.machine := by
  obtain ⟨x, _, _, _, _, _, rfl⟩ := spawn_eq_some h
  rfl

theorem spawn_phase {thread vm : Bool} (h : w.spawn p c thread vm = some w') (q : Pid) :
    w'.tracees.phase q = if q = c then some .newborn else w.tracees.phase q := by
  obtain ⟨x, hParent, hChild, _, _, _, rfl⟩ := spawn_eq_some h
  simp only [Tracees.phase, Tracees.task, Map.get_insert]
  split
  · rfl
  · split
    · rename_i hEq
      rw [hEq]
      exact (congrArg (Option.map Task.phase) hParent).symm
    · rfl

theorem spawn_cloned {thread vm : Bool} (h : w.spawn p c thread vm = some w') (q : Pid) :
    w'.tracees.cloned q = if q = c then none else if q = p then some c else w.tracees.cloned q := by
  obtain ⟨x, _, _, _, _, _, rfl⟩ := spawn_eq_some h
  simp only [Tracees.cloned, Tracees.task, Map.get_insert]
  split
  · rfl
  · split
    · rfl
    · rfl

theorem exec_eq_some (h : w.exec p = some w') :
    ∃ x, w.tracees.task p = some x ∧ x.phase = .released ∧ x.cloned = none ∧
      (∀ q y, w.tracees.task q = some y → q = p ∨ y.group ≠ x.group) ∧
      w' = { w with tracees := { w.tracees with
        tasks := w.tracees.tasks.insert p { x with space := w.tracees.spaces }
        spaces := w.tracees.spaces + 1 } } := by
  simp only [exec] at h
  cases hTask : w.tracees.task p with
  | none => simp [hTask] at h
  | some x =>
    simp only [hTask] at h
    split at h
    · rename_i hAllowed
      obtain ⟨hReleased, hCloned, hAlone⟩ := hAllowed
      cases h
      refine ⟨x, rfl, hReleased, hCloned, fun q y hq => ?_, rfl⟩
      have hMem := List.all_eq_true.mp hAlone ⟨q, y⟩ (Map.get_eq_some_iff.mp hq)
      simpa using hMem
    · cases h

theorem exec_machine (h : w.exec p = some w') : w'.machine = w.machine := by
  obtain ⟨x, _, _, _, _, rfl⟩ := exec_eq_some h
  rfl

theorem exec_phase (h : w.exec p = some w') (q : Pid) :
    w'.tracees.phase q = w.tracees.phase q := by
  obtain ⟨x, hTask, _, _, _, rfl⟩ := exec_eq_some h
  simp only [Tracees.phase, Tracees.task, Map.get_insert]
  split
  · rename_i hEq
    rw [hEq]
    exact (congrArg (Option.map Task.phase) hTask).symm
  · rfl

theorem exec_cloned (h : w.exec p = some w') (q : Pid) :
    w'.tracees.cloned q = w.tracees.cloned q := by
  obtain ⟨x, hTask, _, _, _, rfl⟩ := exec_eq_some h
  simp only [Tracees.cloned, Tracees.task, Map.get_insert]
  split
  · rename_i hEq
    rw [hEq]
    exact (congrArg (Option.bind · Task.cloned) hTask).symm
  · rfl

theorem observe_eq_some {r : Report} (h : w.observe r = some w') :
    w.machine.result = none ∧ w.tracees.allows r = true ∧ w'.machine = w.machine.step r ∧
      w'.tracees = (w.tracees.observe r).after (w.machine.step r).sv := by
  simp only [observe] at h
  cases hResult : w.machine.result with
  | some result => simp [hResult] at h
  | none =>
    simp only [hResult] at h
    split at h
    · rename_i hAllows
      cases h
      exact ⟨rfl, hAllows, rfl, rfl⟩
    · cases h

/-- A report that leaves `supervise` running has been through a pass. -/
theorem observe_wait {r : Report} (h : w.observe r = some w')
    (hOpen : w'.machine.result = none) : ∃ status, w.machine.result = none ∧
      w.tracees.allows r = true ∧ r.status = .ok status ∧
      w'.tracees = (w.tracees.observe r).after w'.machine.sv ∧
      Passed r.answers { w.machine.sv with effects := [] } w.machine.awaits status
        (.wait w'.machine.awaits) w'.machine.sv := by
  obtain ⟨hRunning, hAllows, hMachine, hTracees⟩ := observe_eq_some h
  rw [hMachine] at hOpen ⊢
  obtain ⟨status, hStatus, hPassed⟩ := Machine.step_wait hRunning hOpen
  exact ⟨status, hRunning, hAllows, hStatus, hTracees, hPassed⟩

end World

end Dtrun
