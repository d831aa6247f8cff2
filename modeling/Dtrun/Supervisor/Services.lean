import Dtrun.Supervisor.Base

/-! # What only a system call changes

The generator, the clock, the group-exit flag and the bytes written into tracees change when a task
enters a system call, and nowhere else: choosing, releasing, resuming and reaping tasks leave them
as they are, also where they fail.
-/
namespace Dtrun
set_option autoImplicit false
open FiniteMap StateExcept Supervisor

variable {k : Answers} {p : Pid}

/-- Memory writes into tracees. -/
def Effect.written : Effect → Option (Pid × List Byte)
  | .write p _ data => some (p, data)
  | _ => none

/-- The part of the bookkeeping that serves system calls. -/
structure Services where
  pid : Pid
  groupExiting : Bool
  rng : Prng
  tick : U64
  written : List (Pid × List Byte)

def Supervisor.services (s : Supervisor) : Services where
  pid := s.pid
  groupExiting := s.groupExiting
  rng := s.rng
  tick := s.tick
  written := s.effects.filterMap Effect.written

/-- The services are read off the base. -/
def Base.services (b : Base) : Services where
  pid := b.core.pid
  groupExiting := b.core.groupExiting
  rng := b.core.rng
  tick := b.core.tick
  written := b.core.requests.filterMap Effect.written

theorem services_eq (s : Supervisor) : s.services = s.base.services := by
  have hWritten (effects : List Effect) :
      (effects.filter fun e => !e.isResume).filterMap Effect.written =
        effects.filterMap Effect.written := by
    rw [List.filterMap_filter]
    congr 1
    funext e
    cases e with
    | resume q sig => rfl
    | setregs q regs => rfl
    | write q addr data => rfl
  rw [Supervisor.services, ← hWritten]
  rfl

theorem keeps_services {α : Type} {x : SupM α} (h : Keeps Supervisor.base x) :
    Keeps Supervisor.services x := fun s => by
  rw [KeepsAt, services_eq, h s, ← services_eq]

theorem services_effect (s : Supervisor) {e : Effect} (h : e.written = none) :
    ({ s with effects := s.effects ++ [e] } : Supervisor).services = s.services := by
  simp [services, h]

theorem skipSyscall_keeps (syscall : Int) (retval : U64) :
    Keeps Supervisor.services (skipSyscall k p syscall retval) :=
  .bind (ptraceResult_keeps _) fun _ =>
    .bind (.bind (ptraceResult_keeps _) fun _ => .modify fun s => services_effect s rfl) fun _ =>
      .modify fun _ => rfl

theorem services_wake (s : Supervisor) (addr val : U64) :
    (s.wake addr val).2.services = s.services := by
  rw [wake_frame]
  rfl

theorem services_onThreadExit (s : Supervisor) (p : Pid) (record : Bool) :
    (s.onThreadExit p record).services = s.services := by
  rw [onThreadExit_frame]
  rfl

theorem interceptFutex_keeps (regs : Regs) :
    Keeps Supervisor.services (interceptFutex k p regs) := by
  have pass (name : String) : Keeps Supervisor.services
      (do modify (·.traceFutex p name "pass"); pure false : SupM Bool) :=
    .bind (.modify fun _ => rfl) fun _ => .pure _
  refine fun s => .get_bind ?_
  split
  · exact pass _ s
  · split
    · split
      · have hWait (name : String) : Keeps Supervisor.services (do
            skipSyscall k p SYS_futex 0
            modify fun sv => (sv.block p regs.rdi).traceFutex p name "wait"
            pure true : SupM Bool) :=
          .bind (skipSyscall_keeps _ _) fun _ => .bind (.modify fun _ => rfl) fun _ => .pure _
        exact hWait _ s
      · exact pass _ s
    · split
      · exact .set_bind (services_wake s _ _) (.bind (skipSyscall_keeps _ _) fun _ =>
          .bind (.modify fun _ => rfl) fun _ => .pure _)
      · split
        · split
          · exact pass _ s
          · exact .set_bind ((services_wake _ _ _).trans (services_wake s _ _))
              (.bind (skipSyscall_keeps _ _) fun _ => .bind (.modify fun _ => rfl) fun _ =>
                .pure _)
        · exact pass _ s

theorem onSyscallExit_keeps : Keeps Supervisor.services (onSyscallExit k p) := by
  refine fun s => .get_bind (.set_bind rfl ?_)
  cases s.pending.get p with
  | none => exact .pure _
  | some inject =>
    exact .bind (ptraceResult_keeps _) fun _ =>
      .bind (.bind (ptraceResult_keeps _) fun _ => .modify fun s => services_effect s rfl)
        fun _ => .modify fun _ => rfl

/-- The calls answered from the generator and the virtual clock. -/
inductive Draw where
  | random (buf : U64) (len : Nat)
  | clock (ts : U64) (clk : U32)
  | timeofday (tv : U64)
  deriving DecidableEq

namespace Draw

def of (regs : Regs) : Option Draw :=
  let nr := regs.origRax.toInt
  if nr = SYS_getrandom then some (.random regs.rdi (min regs.rsi.toNat (1 <<< 20)))
  else if nr = SYS_clock_gettime ∨ nr = SYS_CLOCK_GETTIME64 then
    some (.clock regs.rsi (regs.rdi.setWidth 32))
  else if nr = SYS_gettimeofday then some (.timeofday regs.rdi)
  else none

def addr : Draw → U64
  | .random buf _ => buf
  | .clock ts _ => ts
  | .timeofday tv => tv

def blocks : Draw → Nat
  | .random _ len => Prng.blocks len
  | _ => 0

def ticks : Draw → Nat
  | .clock _ clk => if clk = CLOCK_MONOTONIC ∨ clk = CLOCK_MONOTONIC_COARSE ∨ clk = CLOCK_BOOTTIME
      then 1 else 0
  | _ => 0

def bytes (rng : Prng) (tick : U64) : Draw → List Byte
  | .random _ len => (rng.fill len).1
  | .clock _ clk =>
    if clk = CLOCK_MONOTONIC ∨ clk = CLOCK_MONOTONIC_COARSE ∨ clk = CLOCK_BOOTTIME then
      toLeBytes (tick * MONO_STEP_NS / 1000000000) ++ toLeBytes (tick * MONO_STEP_NS % 1000000000)
    else toLeBytes VIRTUAL_EPOCH ++ toLeBytes 0
  | .timeofday _ => toLeBytes VIRTUAL_EPOCH ++ toLeBytes 0

end Draw

/-- What the kernel takes of a write. -/
def Answers.taken (k : Answers) (p : Pid) (addr : U64) (data : List Byte) :
    List (Pid × List Byte) :=
  if data = [] then [] else
    match k.writeMem p addr data with
    | .ok n => [(p, data.take n)]
    | .error _ => []

namespace Services

def draw (v : Services) (k : Answers) (p : Pid) (d : Draw) : Services :=
  { v with
    rng := v.rng.after d.blocks
    tick := v.tick + BitVec.ofNat 64 d.ticks
    written := v.written ++ k.taken p d.addr (d.bytes v.rng v.tick) }

/-- The services once `p` has entered the call in its registers. -/
def entered (v : Services) (k : Answers) (p : Pid) (regs : Regs) : Services :=
  match Draw.of regs with
  | some d => v.draw k p d
  | none =>
    if regs.origRax.toInt = SYS_exit_group then { v with groupExiting := true } else v

end Services

theorem writeProcMem_services {addr : U64} {data : List Byte} (hData : data ≠ [])
    (s : Supervisor) : (final (writeProcMem k p addr data s)).services =
      { s.services with written := s.services.written ++ k.taken p addr data } := by
  simp only [writeProcMem, Answers.taken, if_neg hData]
  cases k.writeMem p addr data with
  | ok n => simp [services, Effect.written, final]
  | error e => simp [services, final]

theorem interceptGetrandom_services (regs : Regs) (s : Supervisor) :
    (final (interceptGetrandom k p regs s)).services =
      s.services.draw k p (.random regs.rdi (min regs.rsi.toNat (1 <<< 20))) := by
  have skip (n : U64) (detail : List (String × Value)) : Keeps Supervisor.services (do
      skipSyscall k p SYS_getrandom n
      modify (·.traceJson "getrandom" detail) : SupM Unit) :=
    .bind (skipSyscall_keeps _ _) fun _ => .modify fun _ => rfl
  generalize hLen : min regs.rsi.toNat (1 <<< 20) = len
  have hFill := s.rng.fill_length len
  simp only [interceptGetrandom, hLen]
  change (final ((if len > 0 then _ else _ : SupM Unit)
    { s with rng := (s.rng.fill len).2 })).services = _
  split
  · rename_i hPos
    have hData : (s.rng.fill len).1 ≠ [] := List.ne_nil_of_length_pos (by omega)
    refine (Keeps.final_bind (fun _ => skip _ _) _).trans ?_
    rw [writeProcMem_services hData]
    simp [services, Services.draw, Draw.blocks, Draw.ticks, Draw.bytes, Draw.addr, Prng.fill_snd]
  · rename_i hZero
    refine (skip _ _ _).trans ?_
    have hData : (s.rng.fill len).1 = [] := List.eq_nil_of_length_eq_zero (by omega)
    simp [services, Services.draw, Draw.blocks, Draw.ticks, Draw.bytes, Prng.fill_snd,
      Answers.taken, hData]

theorem virtualClock_services (s : Supervisor) (ts : U64) (clk : U32) :
    (s.virtualClock clk).2.services =
        { s.services with tick := s.tick + BitVec.ofNat 64 (Draw.clock ts clk).ticks } ∧
      toLeBytes (s.virtualClock clk).1.1 ++ toLeBytes (s.virtualClock clk).1.2 =
        (Draw.clock ts clk).bytes s.rng s.tick := by
  simp only [virtualClock, Draw.ticks, Draw.bytes]
  split
  · rename_i hReal
    have hNot : ¬ (clk = CLOCK_MONOTONIC ∨ clk = CLOCK_MONOTONIC_COARSE ∨ clk = CLOCK_BOOTTIME) := by
      rcases hReal with rfl | rfl
      · decide
      · decide
    simp [hNot, services]
  · split
    · simp [services]
    · simp [services]

theorem interceptClockGettime_services (regs : Regs) (s : Supervisor) :
    (final (interceptClockGettime k p regs s)).services =
      s.services.draw k p (.clock regs.rsi (regs.rdi.setWidth 32)) := by
  have skip (detail : List (String × Value)) : Keeps Supervisor.services (do
      skipSyscall k p SYS_clock_gettime 0
      modify (·.traceJson "clock_gettime" detail) : SupM Unit) :=
    .bind (skipSyscall_keeps _ _) fun _ => .modify fun _ => rfl
  obtain ⟨hServices, hBytes⟩ := virtualClock_services s regs.rsi (regs.rdi.setWidth 32)
  rw [interceptClockGettime, bind_of_ok (get_apply s)]
  generalize s.virtualClock (regs.rdi.setWidth 32) = now at hServices hBytes ⊢
  obtain ⟨⟨sec, nsec⟩, v⟩ := now
  refine (Keeps.final_bind (fun _ => skip _) v).trans ?_
  rw [writeProcMem_services (List.ne_nil_of_length_pos (by simp)), hBytes, hServices]
  rfl

theorem interceptGettimeofday_services (regs : Regs) (s : Supervisor) :
    (final (interceptGettimeofday k p regs s)).services =
      s.services.draw k p (.timeofday regs.rdi) := by
  have skip (detail : List (String × Value)) : Keeps Supervisor.services (do
      skipSyscall k p SYS_gettimeofday 0
      modify (·.traceJson "gettimeofday" detail) : SupM Unit) :=
    .bind (skipSyscall_keeps _ _) fun _ => .modify fun _ => rfl
  have hClock : s.virtualClock CLOCK_REALTIME = ((VIRTUAL_EPOCH, 0), s) := by simp [virtualClock]
  rw [interceptGettimeofday, bind_of_ok (get_apply s), hClock]
  refine (Keeps.final_bind (fun _ => skip _) s).trans ?_
  rw [writeProcMem_services (List.ne_nil_of_length_pos (by simp))]
  simp [services, Services.draw, Draw.blocks, Draw.ticks, Draw.bytes, Draw.addr, Prng.after]

theorem onSyscallEntry_services {regs : Regs} (hRegs : k.getregs p = .ok regs) (s : Supervisor) :
    (final (onSyscallEntry k p s)).services = s.services.entered k p regs := by
  have pass : Keeps Supervisor.services (do
      modify (·.traceSyscall regs.origRax.toInt "pass")
      pure false : SupM Bool) := .bind (.modify fun _ => rfl) fun _ => .pure _
  rw [onSyscallEntry, bind_of_ok (ptraceResult_ok.mpr ⟨hRegs, rfl⟩)]
  simp only [Services.entered, Draw.of]
  split
  · exact (Keeps.final_bind (fun _ => .pure _) s).trans (interceptGetrandom_services regs s)
  · split
    · exact (Keeps.final_bind (fun _ => .pure _) s).trans (interceptClockGettime_services regs s)
    · split
      · exact (Keeps.final_bind (fun _ => .pure _) s).trans
          (interceptGettimeofday_services regs s)
      · split
        · rename_i hFutex
          have hNot : regs.origRax.toInt ≠ SYS_exit_group := by
            rw [hFutex]
            decide
          simp only [if_neg hNot]
          exact interceptFutex_keeps regs s
        · split
          · rfl
          · split
            · have hStash : Keeps Supervisor.services (do
                  stashClone k p regs.origRax.toInt regs
                  modify (·.traceSyscall regs.origRax.toInt "pass")
                  pure false : SupM Bool) := .bind (.modify fun _ => rfl) fun _ => pass
              exact hStash s
            · exact pass s

/-- The call that a syscall stop of `p` reports to be entered. -/
def Answers.entry (k : Answers) (p : Pid) : Option Regs :=
  match k.syscallInfo p, k.getregs p with
  | .ok .entry, .ok regs => some regs
  | _, _ => none

theorem Answers.op_of_entry {regs : Regs} (h : k.entry p = some regs) :
    k.syscallInfo p = .ok .entry := by
  rw [Answers.entry] at h
  split at h
  · assumption
  · cases h

theorem Answers.getregs_of_entry {regs : Regs} (h : k.entry p = some regs) :
    k.getregs p = .ok regs := by
  rw [Answers.entry] at h
  split at h
  · rename_i hRegs
    cases h
    exact hRegs
  · cases h

theorem dispatchSyscall_services (s : Supervisor) : (final (dispatchSyscall k p s)).services =
    match k.entry p with
    | some regs => s.services.entered k p regs
    | none => s.services := by
  rw [services_eq, dispatchSyscall_base, Answers.entry]
  cases hOp : k.syscallInfo p with
  | error e => exact (services_eq s).symm
  | ok op =>
    cases op with
    | entry =>
      cases hRegs : k.getregs p with
      | error e =>
        rw [onSyscallEntry, hRegs]
        exact (services_eq s).symm
      | ok regs => exact (services_eq _).symm.trans (onSyscallEntry_services hRegs s)
    | exit => exact (services_eq _).symm.trans (onSyscallExit_keeps s)
    | none => exact (services_eq s).symm
    | seccomp => exact (services_eq s).symm

/-- The call that a status reports to be entered, and by whom. -/
def Report.entry (r : Report) : Option (Pid × Regs) :=
  match r.status with
  | .ok (.ptraceSyscall p) => (r.answers.entry p).map fun regs => (p, regs)
  | _ => none

theorem Report.entry_eq_some {r : Report} {regs : Regs} : r.entry = some (p, regs) ↔
    r.status = .ok (.ptraceSyscall p) ∧ r.answers.entry p = some regs := by
  simp only [Report.entry]
  split
  · rename_i q hStatus
    constructor
    · intro h
      obtain ⟨_, hRegs, hEq⟩ := Option.map_eq_some_iff.mp h
      cases hEq
      exact ⟨hStatus, hRegs⟩
    · rintro ⟨hq, hRegs⟩
      cases hStatus.symm.trans hq
      simp [hRegs]
  · rename_i hOther
    constructor
    · intro h
      cases h
    · rintro ⟨hq, _⟩
      exact absurd hq (hOther p)

def Services.observe (v : Services) (r : Report) : Services :=
  match r.entry with
  | some (p, regs) => v.entered r.answers p regs
  | none => v

theorem pass_services {r : Report} {status : WaitStatus} (hStatus : r.status = .ok status)
    (awaits : List Await) (s : Supervisor) :
    (final (pass r.answers awaits status s)).services = s.services.observe r := by
  have other (hOther : ∀ p, status ≠ .ptraceSyscall p) : s.services.observe r = s.services := by
    have hEntry : r.entry = none := by cases status <;> simp_all [Report.entry]
    rw [Services.observe, hEntry]
  have exited (p : Pid) : (if p = s.pid then s.base
      else (s.onThreadExit p (s.current = some p)).base).services = s.services := by
    split
    · exact (services_eq s).symm
    · exact (services_eq _).symm.trans (services_onThreadExit s p _)
  rw [services_eq, pass_base, dispatch_base]
  cases status with
  | ptraceSyscall p =>
    rw [← services_eq, dispatchSyscall_services]
    cases hEntry : r.answers.entry p with
    | none => simp [Services.observe, Report.entry, hStatus, hEntry]
    | some regs => simp [Services.observe, Report.entry, hStatus, hEntry]
  | ptraceEvent p sig event =>
    rw [other (by simp)]
    dsimp only
    split
    · rw [dispatchClone_base]
      cases r.answers.getevent p with
      | ok child => exact (services_eq s).symm
      | error e => exact (services_eq s).symm
    · exact (services_eq s).symm
  | stopped p sig =>
    rw [other (by simp)]
    exact (services_eq s).symm
  | exited p code =>
    rw [other (by simp)]
    exact exited p
  | signaled p sig core =>
    rw [other (by simp)]
    exact exited p
  | continued p =>
    rw [other (by simp)]
    exact (services_eq s).symm
  | stillAlive =>
    rw [other (by simp)]
    exact (services_eq s).symm

namespace Machine

variable {m : Machine} {r : Report}

/-- The services, with the bytes written since the start. -/
def services (m : Machine) : Services :=
  { m.sv.services with written := m.log.filterMap Effect.written }

theorem settle_log (log : List Effect) (res : EStateM.Result SuperviseError Supervisor Turn) :
    (settle log res).log = log ++ (final res).effects := by
  cases res with
  | error e s => rfl
  | ok turn s =>
    cases turn with
    | wait awaits => rfl
    | done code => rfl

theorem services_observe_append (v : Services) (r : Report) (old : List (Pid × List Byte)) :
    ({ v with written := old ++ v.written } : Services).observe r =
      { v.observe r with written := old ++ (v.observe r).written } := by
  simp only [Services.observe]
  split
  · simp only [Services.entered]
    split
    · simp [Services.draw]
    · split
      · rfl
      · rfl
  · rfl

/-- One step changes the services as the reported call says, whatever else it does and however it
ends. -/
theorem step_services (hOpen : m.result = none) : (m.step r).services = m.services.observe r := by
  have hHandle : (final (handle m.awaits r { m.sv with effects := [] })).services =
      ({ m.sv with effects := [] } : Supervisor).services.observe r := by
    simp only [handle]
    cases hStatus : r.status with
    | error e => simp [Services.observe, Report.entry, hStatus, final]
    | ok status => exact pass_services hStatus _ _
  have hStep : m.step r = settle m.log (handle m.awaits r { m.sv with effects := [] }) := by
    simp only [step, hOpen]
  have hAppend := services_observe_append
    ({ m.sv with effects := [] } : Supervisor).services r (m.log.filterMap Effect.written)
  simp only [← hHandle] at hAppend
  rw [services, hStep, settle_sv, settle_log, List.filterMap_append]
  refine hAppend.symm.trans (congrArg (Services.observe · r) ?_)
  simp [services, Supervisor.services]

theorem start_services {pid : Pid} {seed : U64} : (start pid seed k).services =
    ⟨pid, false, Prng.new seed, 0, []⟩ := by
  have hBoot : (final (boot k (fresh pid seed))).services = (fresh pid seed).services :=
    keeps_services (.bind scheduleNext_base fun _ => .pure _) _
  rw [services, start, settle_sv, settle_log]
  exact hBoot

end Machine

end Dtrun
