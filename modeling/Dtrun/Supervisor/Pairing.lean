import Dtrun.Supervisor.Frames
import Dtrun.Supervisor.OnePlace
import Dtrun.Supervisor.Services

/-! # A skipped call returns what it was skipped with

A call is skipped by setting its number to -1 at the entry stop; its return value is noted in
`pending` and put into `rax` at the exit stop. An observer that only reads the stops knows which
task is inside a skipped call and what that call is to return; `pending` says the same.
-/
namespace Dtrun
set_option autoImplicit false
open FiniteMap StateExcept Transition Supervisor

variable {k : Answers} {s t : Supervisor} {p q : Pid} {regs : Regs}

def Effect.registers : Effect → Option (Pid × Regs)
  | .setregs p regs => some (p, regs)
  | _ => none

namespace Supervisor

def regsSet (s : Supervisor) : List (Pid × Regs) := s.effects.filterMap Effect.registers

/-- The return value noted for the call that `p` is in. -/
def injection (s : Supervisor) (p : Pid) : Option U64 := (s.pending.get p).map PendingInject.retval

/-- What a `futex` call that is skipped returns. -/
def skippedFutex (s : Supervisor) (k : Answers) (p : Pid) (regs : Regs) : Option U64 :=
  let uaddr := regs.rdi
  let val := regs.rdx
  let cmd := regs.rsi.setWidth 32 &&& FUTEX_CMD_MASK
  if ¬ s.isScheduled p ∨ s.scheduledCount ≤ 1 then none
  else if cmd = FUTEX_WAIT ∨ cmd = FUTEX_WAIT_BITSET then
    if readU32 k p uaddr = some (val.setWidth 32) then some 0 else none
  else if cmd = FUTEX_WAKE ∨ cmd = FUTEX_WAKE_BITSET then
    some (BitVec.ofNat 64 (s.wake uaddr val).1)
  else if cmd = FUTEX_REQUEUE ∨ cmd = FUTEX_CMP_REQUEUE then
    if cmd = FUTEX_CMP_REQUEUE ∧ readU32 k p uaddr ≠ some (regs.r9.setWidth 32) then none
    else
      let (n, s) := s.wake uaddr val
      some (BitVec.ofNat 64 (n + (s.wake uaddr regs.r10).1))
  else none

/-- What the call in `regs` returns if it is skipped; no value means that it is passed through. -/
def skipped (s : Supervisor) (k : Answers) (p : Pid) (regs : Regs) : Option U64 :=
  let nr := regs.origRax.toInt
  if nr = SYS_getrandom then some (BitVec.ofNat 64 (min regs.rsi.toNat (1 <<< 20)))
  else if nr = SYS_clock_gettime ∨ nr = SYS_CLOCK_GETTIME64 then some 0
  else if nr = SYS_gettimeofday then some 0
  else if nr = SYS_futex then s.skippedFutex k p regs
  else none

/-! Whether a call is skipped does not depend on what was asked of the kernel. -/

theorem skipped_effects (effects : List Effect) (s : Supervisor) :
    ({ s with effects := effects } : Supervisor).skipped k p regs = s.skipped k p regs := by
  have hFutex : ({ s with effects := effects } : Supervisor).skippedFutex k p regs =
      s.skippedFutex k p regs := by
    simp only [skippedFutex, wake_effects]
    rfl
  simp only [skipped, hFutex]

/-- The part of the bookkeeping that skipping is about. -/
def slots (s : Supervisor) : PidMap PendingInject × List (Pid × Regs) := (s.pending, s.regsSet)

theorem regsSet_core (s : Supervisor) :
    s.regsSet = s.core.requests.filterMap Effect.registers := by
  simp only [regsSet, core, List.filterMap_filter]
  congr 1
  funext e
  cases e with
  | resume p sig => rfl
  | setregs p regs => rfl
  | write p addr data => rfl

theorem slots_of_core (h : t.core = s.core) : t.slots = s.slots := by
  have hPending : t.pending = s.pending := congrArg Core.pending h
  rw [slots, slots, regsSet_core, regsSet_core, h, hPending]

end Supervisor

/-- From `s` to `t` the call of `p` was entered: if it is skipped, that is noted and done. -/
structure Skips (s t : Supervisor) (p : Pid) (regs : Regs) (r : Option U64) : Prop where
  injection : ∀ q, t.injection q = if q = p then r else s.injection q
  regsSet : t.regsSet = s.regsSet ++ r.toList.map fun _ => (p, { regs with origRax := -1 })

namespace Skips

variable {r : Option U64} {s' t' : Supervisor}

theorem congr (h : Skips s t p regs r) (hs : s'.slots = s.slots) (ht : t'.slots = t.slots) :
    Skips s' t' p regs r := by
  obtain ⟨hPending, hRegs⟩ := Prod.mk.inj hs
  obtain ⟨hPending', hRegs'⟩ := Prod.mk.inj ht
  have same {a b : Supervisor} (h : a.pending = b.pending) (q : Pid) :
      a.injection q = b.injection q := by rw [Supervisor.injection, Supervisor.injection, h]
  refine ⟨fun q => ?_, ?_⟩
  · rw [same hPending', same hPending]
    exact h.injection q
  · rw [hRegs', hRegs]
    exact h.regsSet

theorem passed (hClear : s.injection p = none) (ht : t.slots = s.slots) :
    Skips s t p regs none := by
  obtain ⟨hPending, hRegs⟩ := Prod.mk.inj ht
  refine ⟨fun q => ?_, by rw [hRegs]; simp⟩
  rw [Supervisor.injection, hPending]
  split
  · rename_i hEq
    rw [hEq]
    exact hClear
  · rfl

end Skips

theorem skipSyscall_skips (hRegs : k.getregs p = .ok regs) (s : Supervisor) (syscall : Int)
    (retval : U64) : Ends (fun _ t => Skips s t p regs (some retval)) (fun _ => True)
      (skipSyscall k p syscall retval s) := by
  rw [skipSyscall, bind_of_ok (ptraceResult_ok.mpr ⟨hRegs, rfl⟩)]
  refine Ends.bind ?_
  rw [ptraceSetregs]
  cases hSet : k.setregs p with
  | error e => trivial
  | ok u =>
    refine ⟨fun q => ?_, ?_⟩
    · simp only [Supervisor.injection, Map.get_insert]
      split
      · rfl
      · rfl
    · simp [regsSet, Effect.registers]

/-- A program that skips and then leaves the slots alone, as something before it did. -/
theorem Skips.around {α β : Type} {x : SupM α} {f : α → SupM β} {v : Supervisor}
    {r : Option U64} (hBefore : v.slots = s.slots)
    (hSkip : Ends (fun _ t => Skips v t p regs r) (fun _ => True) (x v))
    (hAfter : ∀ a, Keeps Supervisor.slots (f a)) :
    Ends (fun _ t => Skips s t p regs r) (fun _ => True) ((x >>= f) v) := by
  refine Ends.bind (hSkip.mono (fun u t ht => ?_) fun _ h => h)
  exact (Ends.of_keeps (hAfter u t)).mono (fun _ _ hSlots => ht.congr hBefore.symm hSlots)
    fun _ _ => trivial

theorem keeps_slots {α : Type} {x : SupM α} (h : Keeps Supervisor.core x) :
    Keeps Supervisor.slots x := fun s => Supervisor.slots_of_core (h s)

theorem writeProcMem_slots (addr : U64) (data : List Byte) :
    Keeps Supervisor.slots (writeProcMem k p addr data) := by
  simp only [writeProcMem]
  cases k.writeMem p addr data with
  | ok n =>
    refine .modify fun s => ?_
    simp [slots, regsSet, Effect.registers]
  | error e => exact .throw _

theorem interceptGetrandom_skips (hRegs : k.getregs p = .ok regs) (s : Supervisor) :
    Ends (fun _ t => Skips s t p regs (some (BitVec.ofNat 64 (min regs.rsi.toNat (1 <<< 20)))))
      (fun _ => True) (interceptGetrandom k p regs s) := by
  change Ends _ _ ((if min regs.rsi.toNat (1 <<< 20) > 0 then _ else _ : SupM Unit)
    { s with rng := (s.rng.fill (min regs.rsi.toNat (1 <<< 20))).2 })
  split
  · refine Ends.bind ((Ends.of_keeps (writeProcMem_slots _ _ _)).mono (fun _ v hSlots => ?_)
      fun _ _ => trivial)
    exact Skips.around hSlots (skipSyscall_skips hRegs _ _ _) fun _ => .modify fun _ => rfl
  · exact Skips.around rfl (skipSyscall_skips hRegs _ _ _) fun _ => .modify fun _ => rfl

theorem interceptClockGettime_skips (hRegs : k.getregs p = .ok regs) (s : Supervisor) :
    Ends (fun _ t => Skips s t p regs (some 0)) (fun _ => True)
      (interceptClockGettime k p regs s) := by
  have hClock : (s.virtualClock (regs.rdi.setWidth 32)).2.slots = s.slots := by
    simp only [virtualClock]
    split
    · rfl
    · split
      · rfl
      · rfl
  rw [interceptClockGettime, bind_of_ok (get_apply s)]
  generalize s.virtualClock (regs.rdi.setWidth 32) = now at hClock ⊢
  obtain ⟨⟨sec, nsec⟩, v⟩ := now
  refine Ends.bind ?_
  refine Ends.bind (x := writeProcMem k p _ _) (s := v)
    ((Ends.of_keeps (writeProcMem_slots _ _ v)).mono (fun _ v hSlots => ?_)
    fun _ _ => trivial)
  exact Skips.around (hSlots.trans hClock) (skipSyscall_skips hRegs _ _ _) fun _ =>
    .modify fun _ => rfl

theorem interceptGettimeofday_skips (hRegs : k.getregs p = .ok regs) (s : Supervisor) :
    Ends (fun _ t => Skips s t p regs (some 0)) (fun _ => True)
      (interceptGettimeofday k p regs s) := by
  have hClock : s.virtualClock CLOCK_REALTIME = ((VIRTUAL_EPOCH, 0), s) := by simp [virtualClock]
  rw [interceptGettimeofday, bind_of_ok (get_apply s), hClock]
  refine Ends.bind ?_
  refine Ends.bind (x := writeProcMem k p _ _) (s := s)
    ((Ends.of_keeps (writeProcMem_slots _ _ s)).mono (fun _ v hSlots => ?_)
    fun _ _ => trivial)
  exact Skips.around hSlots (skipSyscall_skips hRegs _ _ _) fun _ => .modify fun _ => rfl

theorem interceptFutex_skips (hRegs : k.getregs p = .ok regs) (hClear : s.injection p = none) :
    Ends (fun _ t => Skips s t p regs (s.skippedFutex k p regs)) (fun _ => True)
      (interceptFutex k p regs s) := by
  have pass (op : String) : Ends (fun _ t => Skips s t p regs none) (fun _ => True)
      ((do modify (·.traceFutex p op "pass"); pure false : SupM Bool) s) :=
    Skips.passed hClear rfl
  have skip {v : Supervisor} (hSlots : v.slots = s.slots) (retval : U64) (op : String) :
      Ends (fun _ t => Skips s t p regs (some retval)) (fun _ => True)
        ((do
          skipSyscall k p SYS_futex retval
          modify (·.traceFutex p op "wake")
          pure false : SupM Bool) v) :=
    Skips.around hSlots (skipSyscall_skips hRegs _ _ _) fun _ =>
      .bind (.modify fun _ => rfl) fun _ => .pure _
  rw [interceptFutex, bind_of_ok (get_apply s)]
  simp only [skippedFutex]
  split
  · exact pass _
  split
  · split
    · exact Skips.around rfl (skipSyscall_skips hRegs _ _ _) fun _ =>
        .bind (.modify fun _ => rfl) fun _ => .pure _
    · exact pass _
  split
  · exact skip (slots_of_core (core_wake _ _ _)) _ _
  split
  · split
    · exact pass _
    · exact skip (slots_of_core ((core_wake _ _ _).trans (core_wake _ _ _))) _ _
  · exact pass _

theorem onSyscallEntry_skips (hRegs : k.getregs p = .ok regs) (hClear : s.injection p = none) :
    Ends (fun _ t => Skips s t p regs (s.skipped k p regs)) (fun _ => True)
      (onSyscallEntry k p s) := by
  have answer {x : SupM Unit} {r : Option U64}
      (hx : Ends (fun _ t => Skips s t p regs r) (fun _ => True) (x s)) :
      Ends (fun _ t => Skips s t p regs r) (fun _ => True) ((do x; pure false : SupM Bool) s) :=
    Ends.bind (hx.mono (fun _ _ h => h) fun _ h => h)
  rw [onSyscallEntry, bind_of_ok (ptraceResult_ok.mpr ⟨hRegs, rfl⟩)]
  simp only [skipped]
  split
  · exact answer (interceptGetrandom_skips hRegs s)
  split
  · exact answer (interceptClockGettime_skips hRegs s)
  split
  · exact answer (interceptGettimeofday_skips hRegs s)
  split
  · exact interceptFutex_skips hRegs hClear
  · split
    · exact Skips.passed hClear rfl
    · split
      · exact Skips.passed hClear rfl
      · exact Skips.passed hClear rfl

theorem onSyscallExit_slots (s : Supervisor) :
    (final (onSyscallExit k p s)).pending = s.pending.erase p ∧
      (s.injection p = none → (final (onSyscallExit k p s)).regsSet = s.regsSet) ∧
      ∀ r regs, s.injection p = some r → k.getregs p = .ok regs → k.setregs p = .ok () →
        (final (onSyscallExit k p s)).regsSet = s.regsSet ++ [(p, { regs with rax := r })] := by
  rw [onSyscallExit, bind_of_ok (get_apply s), bind_of_ok (set_apply _ _)]
  simp only [injection]
  cases hPending : s.pending.get p with
  | none => exact ⟨rfl, fun _ => rfl, fun r regs hr => by simp at hr⟩
  | some inject =>
    refine ⟨?_, fun hNone => by simp at hNone, fun r regs hr hRegs hSet => ?_⟩
    · cases k.getregs p with
      | error e => rfl
      | ok regs =>
        simp only [ptraceSetregs]
        cases k.setregs p with
        | error e => rfl
        | ok u => rfl
    · have hInject : inject.retval = r := by simpa using hr
      simp only [hRegs, ptraceSetregs, hSet, hInject]
      change ((s.effects ++ [Effect.setregs p { regs with rax := r }]).filterMap
        Effect.registers) = _
      simp [regsSet, Effect.registers]

theorem dispatchSyscall_skips (hOp : k.syscallInfo p = .ok .entry) (hRegs : k.getregs p = .ok regs)
    (hClear : s.injection p = none) :
    Ends (fun _ t => Skips s t p regs (s.skipped k p regs)) (fun _ => True)
      (dispatchSyscall k p s) := by
  have resume : Keeps Supervisor.slots (resumeThread k p) := keeps_slots (keeps_core resumeThread_base)
  rw [dispatchSyscall, bind_of_ok (ptraceResult_ok.mpr ⟨hOp, rfl⟩), bind_of_ok (get_apply s)]
  split
  · refine Skips.around rfl ?_ fun _ => resume
    exact Ends.discard (onSyscallEntry_skips hRegs hClear)
  · refine Skips.around rfl (onSyscallEntry_skips hRegs hClear) fun parked => ?_
    split
    · exact .modify fun _ => rfl
    · exact keeps_slots (keeps_core resumeCurrent_base)

theorem dispatchSyscall_exit (hOp : k.syscallInfo p = .ok .exit) (s : Supervisor) :
    (final (dispatchSyscall k p s)).slots = (final (onSyscallExit k p s)).slots := by
  rw [dispatchSyscall, bind_of_ok (ptraceResult_ok.mpr ⟨hOp, rfl⟩), bind_of_ok (get_apply s)]
  split
  · exact Keeps.final_bind (fun _ => keeps_slots (keeps_core resumeThread_base)) s
  · exact Keeps.final_bind (fun _ => keeps_slots (keeps_core yieldCurrent_base)) s

theorem dispatchSyscall_slots (hExit : k.syscallInfo p ≠ .ok .exit)
    (hEntry : ∀ regs, k.syscallInfo p = .ok .entry → k.getregs p ≠ .ok regs) (s : Supervisor) :
    (final (dispatchSyscall k p s)).slots = s.slots := by
  cases hOp : k.syscallInfo p with
  | error e =>
    rw [dispatchSyscall, hOp]
    rfl
  | ok op =>
    rw [dispatchSyscall, bind_of_ok (ptraceResult_ok.mpr ⟨hOp, rfl⟩), bind_of_ok (get_apply s)]
    cases op with
    | exit => exact absurd hOp hExit
    | entry =>
      cases hRegs : k.getregs p with
      | ok regs => exact absurd hRegs (hEntry regs hOp)
      | error e =>
        have hFails : onSyscallEntry k p s = .error (.ptrace e) s := by
          rw [onSyscallEntry, hRegs]
          rfl
        split
        · change (final ((discard (onSyscallEntry k p) >>= fun _ => _) s)).slots = _
          rw [bind_apply, discard_apply, hFails]
          rfl
        · change (final ((onSyscallEntry k p >>= fun _ => _) s)).slots = _
          rw [bind_apply, hFails]
          rfl
    | none =>
      split
      · exact keeps_slots (keeps_core resumeThread_base) s
      · exact keeps_slots (keeps_core resumeCurrent_base) s
    | seccomp =>
      split
      · exact keeps_slots (keeps_core resumeThread_base) s
      · exact keeps_slots (keeps_core resumeCurrent_base) s

theorem pass_skips (awaits : List Await) (hOp : k.syscallInfo p = .ok .entry)
    (hRegs : k.getregs p = .ok regs) (hClear : s.injection p = none) :
    Ends (fun _ t => Skips s t p regs (s.skipped k p regs)) (fun _ => True)
      (pass k awaits (.ptraceSyscall p) s) := by
  have hDispatch : Ends (fun _ t => Skips s t p regs (s.skipped k p regs)) (fun _ => True)
      (dispatch k (.ptraceSyscall p) s) :=
    Skips.around rfl (dispatchSyscall_skips hOp hRegs hClear) fun _ => .pure _
  cases awaits with
  | nil =>
    refine Skips.around rfl hDispatch fun flow => ?_
    cases flow with
    | next => exact .bind (keeps_slots (keeps_core runTail_base)) fun _ => .pure _
    | exit code => exact .pure _
    | await w => exact .pure _
  | cons w outer =>
    simp only [pass, awaitPass]
    rw [if_neg (by simp)]
    refine Skips.around rfl hDispatch fun flow => ?_
    cases flow with
    | next => exact .pure _
    | exit code => exact .pure _
    | await inner => exact .pure _

theorem pass_slots_syscall (awaits : List Await) (s : Supervisor) :
    (final (pass k awaits (.ptraceSyscall p) s)).slots = (final (dispatchSyscall k p s)).slots := by
  have hDispatch : (final (dispatch k (.ptraceSyscall p) s)).slots =
      (final (dispatchSyscall k p s)).slots := Keeps.final_bind (fun _ => .pure _) s
  exact (Supervisor.slots_of_core (pass_core awaits _ s)).trans hDispatch

/-- A pass over any other status sets no registers, and drops what is noted for a task only when that
task is reported dead. -/
theorem pass_slots (awaits : List Await) {status : WaitStatus}
    (hStatus : ∀ p, status ≠ .ptraceSyscall p) (s : Supervisor) :
    (final (pass k awaits status s)).regsSet = s.regsSet ∧
      ((∀ p, status.death = some p → p = s.pid) ∧
          (final (pass k awaits status s)).pending = s.pending ∨
        ∃ p, status.death = some p ∧ p ≠ s.pid ∧ (final (pass k awaits status s)).pending =
          if s.registered p then s.pending.erase p else s.pending) := by
  have requests {t : Supervisor} (h : t.core.requests = s.core.requests) :
      t.regsSet = s.regsSet := by rw [regsSet_core, regsSet_core, h]
  have hPass := pass_core (k := k) awaits status s
  rcases dispatch_core hStatus s with ⟨hAlive, hCore⟩ | ⟨p, hDeath, hOther, hCore⟩
  · rw [hCore] at hPass
    exact ⟨requests (congrArg Core.requests hPass), .inl ⟨hAlive, congrArg Core.pending hPass⟩⟩
  · rw [hCore] at hPass
    exact ⟨requests (by rw [hPass]), .inr ⟨p, hDeath, hOther, congrArg Core.pending hPass⟩⟩

/-! ## The observer -/

def Report.callEntry (r : Report) : Option (Pid × Regs) :=
  match r.status with
  | .ok (.ptraceSyscall p) =>
    match r.answers.syscallInfo p, r.answers.getregs p with
    | .ok .entry, .ok regs => some (p, regs)
    | _, _ => none
  | _ => none

def Report.callExit (r : Report) : Option Pid :=
  match r.status with
  | .ok (.ptraceSyscall p) => if r.answers.syscallInfo p = .ok .exit then some p else none
  | _ => none

/-- For each task inside a system call, what that call returns if it was skipped. -/
abbrev Inside := Pid → Option (Option U64)

namespace Inside

def outside : Inside := fun _ => none

def note (inside : Inside) (w : World) : Label → Inside
  | .spawn _ c _ _ => Function.update inside c none
  | .exec _ => inside
  | .report r =>
    match r.callEntry with
    | some (p, regs) =>
      Function.update inside p (some (w.machine.sv.skipped r.answers p regs))
    | none =>
      match r.callExit.or r.death with
      | some p => Function.update inside p none
      | none => inside

def alternates (inside : Inside) (r : Report) : Bool :=
  (r.callEntry.all fun e => (inside e.1).isNone) && r.callExit.all fun p => (inside p).isSome

end Inside

theorem callEntry_eq_some {r : Report} (h : r.callEntry = some (p, regs)) :
    r.status = .ok (.ptraceSyscall p) ∧ r.answers.syscallInfo p = .ok .entry ∧
      r.answers.getregs p = .ok regs := by
  simp only [Report.callEntry] at h
  split at h
  · rename_i q hStatus
    split at h
    · rename_i hOp hRegs
      cases h
      exact ⟨hStatus, hOp, hRegs⟩
    · cases h
  · cases h

theorem callEntry_eq_none {r : Report} (hStatus : r.status = .ok (.ptraceSyscall p))
    (h : r.callEntry = none) (regs : Regs) (hOp : r.answers.syscallInfo p = .ok .entry) :
    r.answers.getregs p ≠ .ok regs := by
  intro hRegs
  simp [Report.callEntry, hStatus, hOp, hRegs] at h

theorem callExit_eq_some {r : Report} (h : r.callExit = some p) :
    r.status = .ok (.ptraceSyscall p) ∧ r.answers.syscallInfo p = .ok .exit := by
  simp only [Report.callExit] at h
  split at h
  · rename_i q hStatus
    split at h
    · rename_i hOp
      cases h
      exact ⟨hStatus, hOp⟩
    · cases h
  · cases h

theorem Inside.outside_of_entry {inside : Inside} {r : Report} (h : inside.alternates r = true)
    (hEntry : r.callEntry = some (p, regs)) : inside p = none := by
  simp only [alternates, hEntry, Option.all_some, Bool.and_eq_true, Option.isNone_iff_eq_none] at h
  exact h.1

/-- What is noted is what the observer knows, and only for registered tasks. -/
structure Paired (inside : Inside) (s : Supervisor) : Prop where
  injection : ∀ p, s.injection p = (inside p).join
  known : ∀ p, s.injection p ≠ none → s.registered p = true

/-- How a report changes the registers, going by what the observer knows. -/
structure Injected (inside : Inside) (w : World) (r : Report) : Prop where
  entry : ∀ p regs, r.callEntry = some (p, regs) → (w.machine.step r).result = none →
    (w.machine.step r).sv.regsSet =
      (w.machine.sv.skipped r.answers p regs).toList.map fun _ => (p, { regs with origRax := -1 })
  skipped : ∀ p retval regs, r.callExit = some p → inside p = some (some retval) →
    r.answers.getregs p = .ok regs → r.answers.setregs p = .ok () →
    (w.machine.step r).sv.regsSet = [(p, { regs with rax := retval })]
  passed : ∀ p, r.callExit = some p → inside p = some none → (w.machine.step r).sv.regsSet = []
  consumed : ∀ p, r.callExit = some p → (w.machine.step r).sv.pending.get p = none
  other : r.callEntry = none → r.callExit = none → (w.machine.step r).sv.regsSet = []

theorem Paired.injected {inside : Inside} {w : World} {r : Report}
    (h : Paired inside w.machine.sv) (hOpen : w.machine.result = none)
    (hAlternates : inside.alternates r = true) : Injected inside w r := by
  let v : Supervisor := { w.machine.sv with effects := [] }
  have left {p : Pid} (hExit : r.callExit = some p) :
      (w.machine.step r).sv.slots = (final (onSyscallExit r.answers p v)).slots := by
    obtain ⟨hStatus, hOp⟩ := callExit_eq_some hExit
    rw [Machine.step_sv hOpen hStatus]
    exact (pass_slots_syscall _ _).trans (dispatchSyscall_exit hOp _)
  refine ⟨fun p regs hEntry hNext => ?_, fun p retval regs hExit hInside hRegs hSet => ?_,
    fun p hExit hInside => ?_, fun p hExit => ?_, fun hEntry hExit => ?_⟩
  · obtain ⟨hStatus, hOp, hRegs⟩ := callEntry_eq_some hEntry
    have hClear : v.injection p = none := by
      have hOut := Inside.outside_of_entry hAlternates hEntry
      have hInjection : v.injection p = (inside p).join := h.injection p
      rw [hInjection, hOut]
      rfl
    obtain ⟨status, hRead, hPassed⟩ := Machine.step_pass hOpen hNext
    obtain rfl : status = .ptraceSyscall p := by simpa [hStatus] using hRead.symm
    have hSkips := pass_skips w.machine.awaits hOp hRegs hClear
    rw [hPassed] at hSkips
    rw [← skipped_effects []]
    exact hSkips.regsSet
  · have hNoted : v.injection p = some retval := by
      have hInjection : v.injection p = (inside p).join := h.injection p
      rw [hInjection, hInside]
      rfl
    exact (congrArg Prod.snd (left hExit)).trans
      ((onSyscallExit_slots v).2.2 retval regs hNoted hRegs hSet)
  · have hNoted : v.injection p = none := by
      have hInjection : v.injection p = (inside p).join := h.injection p
      rw [hInjection, hInside]
      rfl
    exact (congrArg Prod.snd (left hExit)).trans ((onSyscallExit_slots v).2.1 hNoted)
  · have hErased : (w.machine.step r).sv.pending = v.pending.erase p :=
      (congrArg Prod.fst (left hExit)).trans (onSyscallExit_slots v).1
    rw [hErased, Map.get_erase, if_pos rfl]
  · cases hStatus : r.status with
    | error e =>
      rw [Machine.step, hOpen]
      simp only [handle, hStatus]
      rfl
    | ok status =>
      rw [Machine.step_sv hOpen hStatus]
      by_cases hCall : ∃ p, status = .ptraceSyscall p
      · obtain ⟨p, rfl⟩ := hCall
        have hNot : r.answers.syscallInfo p ≠ .ok .exit := by
          intro hOp
          simp [Report.callExit, hStatus, hOp] at hExit
        exact congrArg Prod.snd ((pass_slots_syscall _ v).trans
          (dispatchSyscall_slots hNot (callEntry_eq_none hStatus hEntry) v))
      · simp only [not_exists] at hCall
        exact (pass_slots _ hCall v).1

theorem Inside.note_entry {inside : Inside} {w : World} {r : Report}
    (hEntry : r.callEntry = some (p, regs)) (q : Pid) : (inside.note w (.report r) q).join =
      if q = p then w.machine.sv.skipped r.answers p regs else (inside q).join := by
  simp only [note, hEntry, Function.update_apply]
  split
  · rfl
  · rfl

theorem Inside.note_other {inside : Inside} {w : World} {r : Report} (hEntry : r.callEntry = none)
    (q : Pid) : (inside.note w (.report r) q).join =
      if r.callExit.or r.death = some q then none else (inside q).join := by
  simp only [note, hEntry]
  cases r.callExit.or r.death with
  | none => rfl
  | some p =>
    simp only [Function.update_apply, Option.some.injEq, eq_comm (a := q)]
    split
    · rfl
    · rfl

theorem Supervisor.injection_congr (h : t.pending = s.pending) (q : Pid) :
    t.injection q = s.injection q := by rw [injection, injection, h]

theorem Supervisor.injection_erase (h : t.pending = s.pending.erase p) (q : Pid) :
    t.injection q = if some p = some q then none else s.injection q := by
  rw [injection, h, Map.get_erase]
  simp only [Option.some.injEq, eq_comm (a := p)]
  split
  · rfl
  · rfl

theorem Paired.injection_step {inside : Inside} {w : World} {r : Report}
    (h : Paired inside w.machine.sv) (hOpen : w.machine.result = none)
    (hNext : (w.machine.step r).result = none) (hAlternates : inside.alternates r = true)
    (q : Pid) : (w.machine.step r).sv.injection q = (inside.note w (.report r) q).join := by
  obtain ⟨status, hStatus, hPass⟩ := Machine.step_pass hOpen hNext
  let v : Supervisor := { w.machine.sv with effects := [] }
  have before (q : Pid) : v.injection q = (inside q).join := h.injection q
  have hSv := Machine.step_sv hOpen hStatus
  cases hEntry : r.callEntry with
  | some e =>
    obtain ⟨p, regs⟩ := e
    obtain ⟨hCall, hOp, hRegs⟩ := callEntry_eq_some hEntry
    obtain rfl : status = .ptraceSyscall p := by simpa [hStatus] using hCall
    have hOut := Inside.outside_of_entry hAlternates hEntry
    have hSkips := pass_skips w.machine.awaits (s := v) hOp hRegs (by
      rw [before, hOut]
      rfl)
    rw [hPass] at hSkips
    have hAfter : (w.machine.step r).sv.injection q =
        if q = p then v.skipped r.answers p regs else v.injection q := hSkips.injection q
    rw [Inside.note_entry hEntry, hAfter, before, skipped_effects]
  | none =>
    rw [Inside.note_other hEntry]
    cases hExit : r.callExit with
    | some p =>
      obtain ⟨hCall, hOp⟩ := callExit_eq_some hExit
      obtain rfl : status = .ptraceSyscall p := by simpa [hStatus] using hCall
      have hPending : (w.machine.step r).sv.pending = v.pending.erase p := by
        rw [hSv]
        exact (congrArg Prod.fst ((pass_slots_syscall _ v).trans (dispatchSyscall_exit hOp v))).trans
          (onSyscallExit_slots v).1
      rw [injection_erase hPending, before]
      rfl
    | none =>
      have hDeath : r.death = status.death := by simp only [Report.death, hStatus]
      simp only [Option.none_or, hDeath]
      by_cases hCall : ∃ p, status = .ptraceSyscall p
      · obtain ⟨p, rfl⟩ := hCall
        have hNot : r.answers.syscallInfo p ≠ .ok .exit := by
          intro hOp
          simp [Report.callExit, hStatus, hOp] at hExit
        have hPending : (w.machine.step r).sv.pending = v.pending := by
          rw [hSv]
          exact congrArg Prod.fst ((pass_slots_syscall _ v).trans
            (dispatchSyscall_slots hNot (callEntry_eq_none hStatus hEntry) v))
        rw [injection_congr hPending, before]
        rfl
      · simp only [not_exists] at hCall
        rcases (pass_slots (k := r.answers) w.machine.awaits hCall v).2 with
          ⟨hInit, hPending⟩ | ⟨p, hDied, _, hPending⟩
        · rw [← hSv] at hPending
          have hAlive : status.death ≠ some q := by
            intro hDied
            exact (pass_ok hPass).death_ne hDied (hInit q hDied)
          rw [injection_congr hPending, before, if_neg hAlive]
        · rw [← hSv] at hPending
          rw [hDied, ← before]
          split at hPending
          · exact injection_erase hPending q
          · rename_i hUnknown
            rw [injection_congr hPending]
            split
            · rename_i hEq
              cases hEq
              by_contra hNoted
              exact hUnknown (h.known _ hNoted)
            · rfl

theorem Paired.step {inside : Inside} {w : World} {r : Report} (h : Paired inside w.machine.sv)
    (hPlaced : Placed w.machine.sv w.machine.awaits w.tracees) (hOpen : w.machine.result = none)
    (hNext : (w.machine.step r).result = none) (hAllows : w.tracees.allows r = true)
    (hAlternates : inside.alternates r = true) :
    Paired (inside.note w (.report r)) (w.machine.step r).sv := by
  refine ⟨h.injection_step hOpen hNext hAlternates, fun q hq => ?_⟩
  rw [h.injection_step hOpen hNext hAlternates] at hq
  obtain ⟨status, hStatus, hPassed⟩ := Machine.step_wait hOpen hNext
  have known (hNoted : (inside q).join ≠ none) : w.machine.sv.registered q = true :=
    h.known q (by rwa [h.injection])
  cases hEntry : r.callEntry with
  | some e =>
    obtain ⟨p, regs⟩ := e
    obtain ⟨hCall, _, _⟩ := callEntry_eq_some hEntry
    obtain rfl : status = .ptraceSyscall p := by simpa [hStatus] using hCall
    refine hPassed.registered_mono (q := q) ?_ (by simp [WaitStatus.death])
    rw [Inside.note_entry hEntry] at hq
    split at hq
    · rename_i hEq
      rw [hEq]
      exact (hPlaced.ran (Tracees.allows_syscall hStatus hAllows)).1
    · exact known hq
  | none =>
    rw [Inside.note_other hEntry] at hq
    split at hq
    · exact absurd rfl hq
    · rename_i hNot
      refine hPassed.registered_mono (q := q) (known hq) fun hDeath => hNot ?_
      have hNoExit : r.callExit = none := by
        cases hExit : r.callExit with
        | none => rfl
        | some p =>
          rw [(callExit_eq_some hExit).1] at hStatus
          cases hStatus
          cases hDeath
      simpa only [hNoExit, Option.none_or, Report.death, hStatus] using hDeath

namespace World

variable {pid : Pid} {seed : U64} {x : World × Inside}

/-- The supervisor with its container, and an observer of the system call stops beside them. -/
def observedSystem (pid : Pid) (seed : U64) : System (World × Inside) Label :=
  (system pid seed).observed Inside.note Inside.outside

def Alternates (x : World × Inside) : Label → Prop
  | .report r => x.2.alternates r = true
  | _ => True

instance (x : World × Inside) : (l : Label) → Decidable (Alternates x l)
  | .spawn _ _ _ _ | .exec _ => .isTrue trivial
  | .report _ => inferInstanceAs (Decidable (_ = _))

/-- The runs in which moreover no new task gets a pid that is still held. -/
def Alternating (x : World × Inside) (l : Label) : Prop := Alternates x l ∧ x.1.Unheld l

instance (x : World × Inside) (l : Label) : Decidable (Alternating x l) :=
  inferInstanceAs (Decidable (_ ∧ _))

theorem paired (h : (observedSystem pid seed).Reach Alternating x)
    (hOpen : x.1.machine.result = none) : Paired x.2 x.1.machine.sv := by
  refine System.Reach.invariant (I := fun x => x.1.machine.result = none →
    Paired x.2 x.1.machine.sv) ?_ ?_ h hOpen
  · rintro ⟨_, _⟩ ⟨⟨k, rfl⟩, rfl⟩ hOpen
    have hCore : (final (boot k (Machine.fresh pid seed))).core = (Machine.fresh pid seed).core :=
      keeps_core (.bind scheduleNext_base fun _ => .pure _) (Machine.fresh pid seed)
    have hNone (p : Pid) : (Machine.start pid seed k).sv.injection p = none := by
      rw [Machine.start, Machine.settle_sv, injection_congr (congrArg Core.pending hCore)]
      rfl
    exact ⟨hNone, fun p hp => absurd (hNone p) hp⟩
  · intro x l y hReach hPaired hOk hStep hOpen
    obtain ⟨hNext, hNote⟩ := System.observed_step hStep
    have hWorld : (system pid seed).Reach Unheld x.1 :=
      hReach.unobserved fun _ _ hBoth => hBoth.2
    rw [hNote]
    cases l with
    | spawn p c thread vm =>
      obtain ⟨x', _, hChild, _⟩ := spawn_eq_some hNext
      rw [spawn_machine hNext] at hOpen ⊢
      have hOld := hPaired hOpen
      have hClear : x.1.machine.sv.injection c = none := by
        by_contra hNoted
        have hGone : x.1.tracees.phase c = none := by simp [Tracees.phase, hChild]
        obtain ⟨a, ha, hEq⟩ := (placed hWorld hOpen).absent c (hOld.known c hNoted) hGone
        exact (hOk.2.2.1 a ha).1 hEq
      refine ⟨fun q => ?_, hOld.known⟩
      simp only [Inside.note, Function.update_apply]
      split
      · rename_i hEq
        rw [hEq, hClear]
        rfl
      · exact hOld.injection q
    | exec p =>
      rw [exec_machine hNext] at hOpen ⊢
      exact hPaired hOpen
    | report r =>
      obtain ⟨hRunning, hAllows, hMachine, _⟩ := observe_eq_some hNext
      rw [hMachine] at hOpen ⊢
      exact (hPaired hRunning).step (placed hWorld hRunning) hRunning hOpen hAllows hOk.1

/-- What is noted for a task is what the call it is in was skipped with, since it entered it: that
much is put into `rax` at its exit stop, and no other call's return value is touched. -/
theorem injections_paired (h : (observedSystem pid seed).Reach Alternating x)
    (hOpen : x.1.machine.result = none) :
    (∀ p, x.1.machine.sv.injection p = (x.2 p).join) ∧
      ∀ r, x.2.alternates r = true → Injected x.2 x.1 r :=
  ⟨(paired h hOpen).injection, fun _ hAlternates => (paired h hOpen).injected hOpen hAlternates⟩

theorem injections_paired_getrandom : ∃ x,
    (observedSystem 1 0).exec Alternating (start 1 0 {}, Inside.outside)
      [.report (.enters 1 { origRax := 318, rsi := 8 })] = some x ∧
    (x.1.machine.step (.leaves 1)).sv.regsSet = [(1, { rax := 8 })] := by
  have hRun : ((observedSystem 1 0).exec Alternating (start 1 0 {}, Inside.outside)
      [.report (.enters 1 { origRax := 318, rsi := 8 })]).map (fun x =>
        (x.1.machine.result.isNone, x.2 1)) = some (true, some (some 8)) := by decide +kernel
  obtain ⟨x, hExec, hx⟩ := Option.map_eq_some_iff.mp hRun
  simp only [Prod.mk.injEq, Option.isNone_iff_eq_none] at hx
  have hReach : (observedSystem 1 0).Reach Alternating x :=
    System.reach_of_exec ⟨⟨{}, rfl⟩, rfl⟩ hExec
  have hInside : x.2.alternates (.leaves 1) = true := by
    change (true && (x.2 1).isSome) = true
    rw [hx.2]
    rfl
  exact ⟨x, hExec, ((injections_paired hReach hx.1).2 _ hInside).skipped 1 8 {} rfl hx.2 rfl rfl⟩

/-- Task 2 waits for a child that is gone. A second task of that pid stops in its place, is let go
without having been registered, and dies in a skipped call. A third one gets that call's value. -/
def strangersInjection : List Label :=
  [.spawn 1 2 false false, .report (.created 1 .fork 2), .report (.plain (.stopped 2 .SIGSTOP)),
   .spawn 1 3 false false, .report (.created 1 .fork 3), .report (.plain (.stopped 3 .SIGSTOP)),
   .spawn 2 5 false false, .report (.created 2 .fork 5),
   .report (.plain (.signaled 5 .SIGKILL false)), .spawn 3 5 false false,
   .report (.plain (.stopped 5 .SIGSTOP)), .report (.enters 5 { origRax := 318, rsi := 8 }),
   .report (.plain (.signaled 5 .SIGKILL false)), .spawn 2 5 false false,
   .report (.created 2 .fork 5), .report (.plain (.stopped 5 .SIGSTOP)),
   .report (.enters 5 { origRax := 1 })]

theorem not_injections_paired : ¬ ∀ (pid : Pid) (seed : U64) (x : World × Inside),
    (observedSystem pid seed).Reach Alternates x → x.1.machine.result = none →
      ∀ r, x.1.tracees.allows r = true → x.2.alternates r = true → Injected x.2 x.1 r := by
  intro hAll
  have hRun : ((observedSystem 1 0).exec Alternates (start 1 0 {}, Inside.outside)
      strangersInjection).map (fun x => (x.1.machine.result.isNone, x.2 5,
        x.1.tracees.allows (.leaves 5), (x.1.machine.step (.leaves 5)).sv.regsSet.length)) =
      some (true, some none, true, 1) := by decide +kernel
  obtain ⟨x, hExec, hx⟩ := Option.map_eq_some_iff.mp hRun
  simp only [Prod.mk.injEq, Option.isNone_iff_eq_none] at hx
  obtain ⟨hOpen, hInside, hAllows, hSet⟩ := hx
  have hReach : (observedSystem 1 0).Reach Alternates x :=
    System.reach_of_exec ⟨⟨{}, rfl⟩, rfl⟩ hExec
  have hAlternates : x.2.alternates (.leaves 5) = true := by
    change (true && (x.2 5).isSome) = true
    rw [hInside]
    rfl
  have hNone := (hAll 1 0 x hReach hOpen _ hAllows hAlternates).passed 5 rfl hInside
  rw [hNone] at hSet
  cases hSet

end World

end Dtrun
