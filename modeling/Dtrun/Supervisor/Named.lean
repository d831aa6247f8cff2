import Dtrun.Supervisor.Alike
import Dtrun.Supervisor.Groups
import Dtrun.Supervisor.Pairing
import Dtrun.Supervisor.Positions

/-! # Whom the supervisor names

A pending result belongs to a task that is registered, so nothing is left of it when its task goes.
-/
namespace Dtrun
set_option autoImplicit false
open FiniteMap StateExcept Transition Supervisor

variable {k : Answers} {p q : Pid}

/-- What is pending for `q`. -/
def Supervisor.slot (q : Pid) (s : Supervisor) : Option PendingInject := s.pending.get q

section

variable (hne : q ≠ p)
include hne

theorem skipSyscall_slot (syscall : Int) (retval : U64) :
    Keeps (slot q) (skipSyscall k p syscall retval) :=
  .bind (ptraceResult_keeps _) fun _ => .bind
    (.bind (ptraceResult_keeps _) fun _ => .modify fun _ => rfl) fun _ =>
      .modify fun s => Map.get_insert_ne s.pending _ hne

omit hne in
theorem writeProcMem_slot (addr : U64) (data : List Byte) :
    Keeps (slot q) (writeProcMem k p addr data) := by
  rw [writeProcMem]
  cases k.writeMem p addr data with
  | ok n => exact .modify fun _ => rfl
  | error e => exact .throw _

omit hne in
theorem virtualClock_slot (s : Supervisor) (clk : U32) :
    slot q (s.virtualClock clk).2 = slot q s := by
  simp only [virtualClock]
  split
  · rfl
  · split
    · rfl
    · rfl

theorem interceptGetrandom_slot (regs : Regs) :
    Keeps (slot q) (interceptGetrandom k p regs) := by
  refine fun s => .get_bind (.set_bind rfl ?_)
  split
  · exact .bind (writeProcMem_slot _ _) fun _ => .bind (skipSyscall_slot hne _ _) fun _ =>
      .modify fun _ => rfl
  · exact .bind (skipSyscall_slot hne _ _) fun _ => .modify fun _ => rfl

theorem interceptClockGettime_slot (regs : Regs) :
    Keeps (slot q) (interceptClockGettime k p regs) :=
  fun s => .get_bind (.set_bind (virtualClock_slot s _) (.bind (writeProcMem_slot _ _) fun _ =>
    .bind (skipSyscall_slot hne _ _) fun _ => .modify fun _ => rfl))

theorem interceptGettimeofday_slot (regs : Regs) :
    Keeps (slot q) (interceptGettimeofday k p regs) :=
  fun s => .get_bind (.set_bind (virtualClock_slot s CLOCK_REALTIME)
    (.bind (writeProcMem_slot _ _) fun _ =>
      .bind (skipSyscall_slot hne _ _) fun _ => .modify fun _ => rfl))

theorem interceptFutex_slot (regs : Regs) : Keeps (slot q) (interceptFutex k p regs) := by
  have pass (name : String) : Keeps (slot q)
      (do modify (·.traceFutex p name "pass"); pure false : SupM Bool) :=
    .bind (.modify fun _ => rfl) fun _ => .pure _
  have woken (retval : U64) (name : String) : Keeps (slot q) (do
      skipSyscall k p SYS_futex retval
      modify (·.traceFutex p name "wake")
      pure false : SupM Bool) :=
    .bind (skipSyscall_slot hne _ _) fun _ => .bind (.modify fun _ => rfl) fun _ => .pure _
  have parked (name : String) : Keeps (slot q) (do
      skipSyscall k p SYS_futex 0
      modify fun sv => (sv.block p regs.rdi).traceFutex p name "wait"
      pure true : SupM Bool) :=
    .bind (skipSyscall_slot hne _ _) fun _ => .bind (.modify fun _ => rfl) fun _ => .pure _
  have wake (s : Supervisor) (addr val : U64) : slot q (s.wake addr val).2 = slot q s := by
    rw [wake_frame]
    rfl
  refine fun s => .get_bind ?_
  split
  · exact pass _ s
  · split
    · split
      · exact parked _ s
      · exact pass _ s
    · split
      · exact .set_bind (wake s _ _) (woken _ _)
      · split
        · split
          · exact pass _ s
          · exact .set_bind ((wake _ _ _).trans (wake s _ _)) (woken _ _)
        · exact pass _ s

theorem onSyscallEntry_slot : Keeps (slot q) (onSyscallEntry k p) := by
  refine .bind (ptraceResult_keeps _) fun regs => ?_
  dsimp only
  split
  · exact .bind (interceptGetrandom_slot hne regs) fun _ => .pure _
  split
  · exact .bind (interceptClockGettime_slot hne regs) fun _ => .pure _
  split
  · exact .bind (interceptGettimeofday_slot hne regs) fun _ => .pure _
  split
  · exact interceptFutex_slot hne regs
  split
  · exact .bind (.modify fun _ => rfl) fun _ => .pure _
  split
  · exact .bind (.modify fun _ => rfl) fun _ => .bind (.modify fun _ => rfl) fun _ => .pure _
  · exact .bind (.modify fun _ => rfl) fun _ => .pure _

theorem pass_slot_syscall (awaits : List Await) (s : Supervisor) :
    slot q (final (pass k awaits (.ptraceSyscall p) s)) = slot q s := by
  have hSlots : (final (pass k awaits (.ptraceSyscall p) s)).pending =
      (final (dispatchSyscall k p s)).pending := congrArg Prod.fst (pass_slots_syscall awaits s)
  rw [slot, hSlots]
  have hBase := congrArg (fun b : Base => b.core.pending.get q)
    (dispatchSyscall_base (k := k) (p := p) s)
  refine hBase.trans ?_
  cases k.syscallInfo p with
  | error e => rfl
  | ok op =>
    cases op with
    | entry => exact onSyscallEntry_slot hne s
    | exit =>
      refine (congrArg (fun m : PidMap PendingInject => m.get q)
        (onSyscallExit_slots (k := k) (p := p) s).1).trans ?_
      exact Map.get_erase_ne s.pending hne
    | none => rfl
    | seccomp => rfl

end

namespace World

variable {pid : Pid} {seed : U64} {w : World}

/-- What is pending belongs to a registered task. -/
theorem pending_registered (h : (system pid seed).Reach Unheld w)
    (hOpen : w.machine.result = none) (q : Pid) (hq : w.machine.sv.pending.get q ≠ none) :
    w.machine.sv.registered q = true := by
  refine System.Reach.invariant (I := fun w => w.machine.result = none → ∀ q,
    w.machine.sv.pending.get q ≠ none → w.machine.sv.registered q = true) ?_ ?_ h hOpen q hq
  · rintro _ ⟨k, rfl⟩ _ q hq
    have hCore : (final (boot k (Machine.fresh pid seed))).core = (Machine.fresh pid seed).core :=
      keeps_core (.bind scheduleNext_base fun _ => .pure _) (Machine.fresh pid seed)
    refine absurd ?_ hq
    change (Machine.start pid seed k).sv.pending.get q = none
    have hPending : (final (boot k (Machine.fresh pid seed))).pending = ∅ :=
      congrArg Core.pending hCore
    rw [Machine.start, Machine.settle_sv, hPending]
    rfl
  · intro w l w' hReach hKept _ hStep hOpen q hq
    cases l with
    | spawn p c thread vm =>
      rw [spawn_machine hStep] at hOpen hq ⊢
      exact hKept hOpen q hq
    | exec p =>
      rw [exec_machine hStep] at hOpen hq ⊢
      exact hKept hOpen q hq
    | report r =>
      obtain ⟨status, hRunning, hAllows, hStatus, _, hPassed⟩ := observe_wait hStep hOpen
      obtain ⟨_, _, hMachine, _⟩ := observe_eq_some hStep
      have hPlaced := placed hReach hRunning
      have known (hDeath : status.death ≠ some q) (hOld : w.machine.sv.registered q = true) :
          w'.machine.sv.registered q = true := hPassed.registered_mono hOld hDeath
      rw [hMachine, Machine.step_sv hRunning hStatus] at hq
      by_cases hCall : ∃ p, status = .ptraceSyscall p
      · obtain ⟨p, rfl⟩ := hCall
        refine known (by simp [WaitStatus.death]) ?_
        by_cases hEq : q = p
        · subst hEq
          by_contra hUnknown
          exact (hPlaced.unregistered q (Bool.of_not_eq_true hUnknown)).1
            (Tracees.allows_syscall hStatus hAllows)
        · have hSame := pass_slot_syscall (k := r.answers) hEq w.machine.awaits
            { w.machine.sv with effects := [] }
          rw [slot] at hSame
          rw [hSame] at hq
          exact hKept hRunning q hq
      · simp only [not_exists] at hCall
        rcases (pass_slots (k := r.answers) w.machine.awaits hCall
          { w.machine.sv with effects := [] }).2 with ⟨hInit, hPending⟩ | ⟨p, hDied, _, hPending⟩
        · rw [hPending] at hq
          refine known (fun hDied => ?_) (hKept hRunning q hq)
          exact hPassed.death_ne hDied (hInit q hDied)
        · rw [hPending] at hq
          have hne : p ≠ q := by
            rintro rfl
            split at hq
            · rw [Map.get_erase_self] at hq
              exact hq rfl
            · rename_i hUnknown
              exact hUnknown (hKept hRunning p hq)
          refine known (fun hSame => hne (Option.some.inj (hDied.symm.trans hSame)))
            (hKept hRunning q ?_)
          split at hq
          · rwa [Map.get_erase_ne _ hne.symm] at hq
          · exact hq

end World

namespace Position

variable {P : Program} {σ : Equiv.Perm Pid} {seed : U64} {x : Position P}

theorem init_lives (h : (P.on σ seed).Reach (Fair σ) x) (hOpen : x.world.machine.result = none) :
    x.world.tracees.phase (σ 0) ≠ none := World.init_lives (reach_world h) hOpen

/-- While a thread runs, every pid that the supervisor names is that of a task. -/
theorem within (h : (P.on σ seed).Reach (Fair σ) x) (hOpen : x.world.machine.result = none)
    (hNot : ¬ x.Ended) (hRan : x.world.tracees.phase p = some .released)
    (hPlain : ∀ q, x.world.machine.sv.sigPending.get q = none) :
    x.world.machine.awaits = [] ∧
      x.world.machine.sv.Within fun q => x.world.tracees.phase q ≠ none := by
  have hPlaced := World.placed (reach_world h) hOpen
  obtain ⟨hCurrent, hNone⟩ :=
    (orderly h hOpen hNot).runs (placed h hOpen) (awaiting h hOpen) (.inl hRan)
  have hNow : x.world.machine.sv.current = some p := hCurrent
  have known {q : Pid} (hq : x.world.machine.sv.registered q = true) :
      x.world.tracees.phase q ≠ none := by
    intro hGone
    obtain ⟨w, hw, _⟩ := hPlaced.absent q hq hGone
    rw [hNone] at hw
    cases hw
  have scheduled {q : Pid} (hq : x.world.machine.sv.isScheduled q = true) :
      x.world.tracees.phase q ≠ none := known (registered_of_isScheduled hq)
  refine ⟨hNone, ?_, fun q hq => known (World.pending_registered (reach_world h) hOpen q hq),
    fun q hq => known hq, fun q hq => scheduled (hPlaced.runnable q hq).1,
    fun q hq => known (hPlaced.starting q hq).1, fun q hq => (hPlaced.early q hq).2.ne_none,
    fun q hq => scheduled (hPlaced.parked.scheduled q hq), fun addr q hq => ?_, fun q hq => ?_,
    fun q hq => absurd (hPlain q) hq⟩
  · rw [World.pid_eq (reach_world h)]
    exact init_lives h hOpen
  · exact scheduled (hPlaced.parked.scheduled q ((hPlaced.parked.queued.blocked q).mpr ⟨addr, hq⟩))
  · cases hNow.symm.trans hq
    rw [hRan]
    simp

/-- While a thread runs that is not creating one, nobody is. -/
theorem cloned_eq_none (h : (P.on σ seed).Reach (Fair σ) x) (hOpen : x.world.machine.result = none)
    (hNot : ¬ x.Ended) (hRan : x.world.tracees.phase p = some .released)
    (hIdle : x.world.tracees.cloned p = none) (q : Pid) : x.world.tracees.cloned q = none := by
  have hOrderly := orderly h hOpen hNot
  have running {q : Pid} (hq : x.world.tracees.phase q = some .released) :
      x.sv.current = some q :=
    (hOrderly.runs (placed h hOpen) (awaiting h hOpen) (.inl hq)).1
  cases hNext : x.world.tracees.cloned q with
  | none => rfl
  | some c =>
    cases (running (hOrderly.cloning q c hNext).1).symm.trans (running hRan)
    exact hNext.symm.trans hIdle

/-- Then a pid of no task is free to be given out. -/
theorem unheld (hWithin : x.world.machine.sv.Within fun q => x.world.tracees.phase q ≠ none)
    (hNone : x.world.machine.awaits = []) (hCloned : ∀ q, x.world.tracees.cloned q = none)
    (hFree : x.world.tracees.phase q = none) : x.world.Unheld (.spawn p q true true) := by
  refine ⟨fun hNow => hWithin.current _ hNow hFree, fun a ha => ?_, ?_⟩
  · rw [hNone] at ha
    cases ha
  · refine List.any_eq_false.mpr fun e hMem => ?_
    have hq := hCloned e.1
    rw [Tracees.cloned, Tracees.task, Map.get_eq_some_iff.mpr hMem] at hq
    have hIdle : e.2.cloned = none := hq
    simp [hIdle]

end Position

end Dtrun
