import Dtrun.Library.Equivariance
import Dtrun.Supervisor.Machine

/-! # The supervisor does not look at pids

Host pids are keys and queue entries, and nothing else. Under an injective renaming of all pids
that the kernel hands out, every handler does the renamed thing, and the records, which carry
virtual thread ids, stay as they are.
-/
namespace Dtrun
set_option autoImplicit false
open FiniteMap Equivariance StateExcept

variable (ρ : Pid ↪ Pid)

def WaitStatus.rename : WaitStatus → WaitStatus
  | .exited p code => .exited (ρ p) code
  | .signaled p sig core => .signaled (ρ p) sig core
  | .stopped p sig => .stopped (ρ p) sig
  | .ptraceEvent p sig event => .ptraceEvent (ρ p) sig event
  | .ptraceSyscall p => .ptraceSyscall (ρ p)
  | .continued p => .continued (ρ p)
  | .stillAlive => .stillAlive

def Effect.rename : Effect → Effect
  | .resume p sig => .resume (ρ p) sig
  | .setregs p regs => .setregs (ρ p) regs
  | .write p addr data => .write (ρ p) addr data

/-- The answers about renamed tasks are the answers about the tasks, and the child that a clone
event names is renamed. -/
structure Answers.Renames (k k' : Answers) : Prop where
  syscallInfo : ∀ p, k'.syscallInfo (ρ p) = k.syscallInfo p
  getevent : ∀ p, k'.getevent (ρ p) = (k.getevent p).map ρ
  getregs : ∀ p, k'.getregs (ρ p) = k.getregs p
  setregs : ∀ p, k'.setregs (ρ p) = k.setregs p
  syscall : ∀ p, k'.syscall (ρ p) = k.syscall p
  readMem : ∀ p, k'.readMem (ρ p) = k.readMem p
  writeMem : ∀ p, k'.writeMem (ρ p) = k.writeMem p

structure Report.Renames (r r' : Report) : Prop where
  status : r'.status = r.status.map (WaitStatus.rename ρ)
  answers : r.answers.Renames ρ r'.answers

def Await.rename (w : Await) : Await := ⟨ρ w.child, ρ w.parent⟩

def Flow.rename : Flow → Flow
  | .next => .next
  | .exit code => .exit code
  | .await w => .await (w.rename ρ)

def Turn.rename : Turn → Turn
  | .wait awaits => .wait (awaits.map (Await.rename ρ))
  | .done code => .done code

def Supervisor.rename (s : Supervisor) : Supervisor where
  pid := ρ s.pid
  rng := s.rng
  tick := s.tick
  pending := renameKeys ρ s.pending
  seq := s.seq
  threads := renameKeys ρ s.threads
  vtidNext := s.vtidNext
  runnable := s.runnable.map ρ
  pendingStart := s.pendingStart.map ρ
  stoppedPending := s.stoppedPending.map ρ
  blocked := s.blocked.map ρ
  waiting := mapValues (List.map ρ) s.waiting
  current := s.current.map ρ
  lastVtid := s.lastVtid
  sigPending := renameKeys ρ s.sigPending
  clonePending := renameKeys ρ s.clonePending
  groupExiting := s.groupExiting
  trace := s.trace
  effects := s.effects.map (Effect.rename ρ)

def Machine.rename (m : Machine) : Machine where
  sv := m.sv.rename ρ
  awaits := m.awaits.map (Await.rename ρ)
  result := m.result
  log := m.log.map (Effect.rename ρ)

variable {ρ} {k k' : Answers} {s : Supervisor} {p : Pid}

namespace Supervisor

@[simp] theorem isScheduled_rename (s : Supervisor) (p : Pid) :
    (s.rename ρ).isScheduled (ρ p) = s.isScheduled p := by
  simp only [isScheduled, rename, get_renameKeys]

@[simp] theorem registered_rename (s : Supervisor) (p : Pid) :
    (s.rename ρ).registered (ρ p) = s.registered p := by
  simp only [registered, rename, get_renameKeys]

theorem scheduledCount_rename (s : Supervisor) :
    (s.rename ρ).scheduledCount = s.scheduledCount := by
  simp only [scheduledCount, rename, renameKeys, List.filter_map, List.length_map]
  rfl

theorem anyConcurrent_rename (s : Supervisor) : (s.rename ρ).anyConcurrent = s.anyConcurrent := by
  simp only [anyConcurrent, rename, renameKeys, List.any_map]
  rfl

theorem current_rename (s : Supervisor) (p : Pid) :
    (s.rename ρ).current = some (ρ p) ↔ s.current = some p := by
  simp [rename]

theorem current_rename_none (s : Supervisor) : (s.rename ρ).current = none ↔ s.current = none := by
  simp [rename]

theorem traceJson_rename (s : Supervisor) (event : String) (detail : List (String × Value)) :
    (s.rename ρ).traceJson event detail = (s.traceJson event detail).rename ρ := rfl

theorem traceFutex_rename (s : Supervisor) (p : Pid) (op kind : String) :
    (s.rename ρ).traceFutex (ρ p) op kind = (s.traceFutex p op kind).rename ρ := by
  simp only [traceFutex, traceJson, rename, get_renameKeys]

theorem enqueue_rename (s : Supervisor) (p : Pid) :
    (s.rename ρ).enqueue (ρ p) = (s.enqueue p).rename ρ := by
  simp [enqueue, rename]

theorem parkedOn_rename (s : Supervisor) (addr : U64) :
    (s.rename ρ).parkedOn addr = (s.parkedOn addr).map ρ := by
  simp only [parkedOn, rename, get_mapValues]
  cases s.waiting.get addr with
  | none => rfl
  | some queue => rfl

theorem block_rename (s : Supervisor) (p : Pid) (addr : U64) :
    (s.rename ρ).block (ρ p) addr = (s.block p addr).rename ρ := by
  simp only [block, parkedOn_rename]
  simp [rename, mapValues_insert]

theorem wakeLoop_rename (cap : Nat) (queue : List Pid) (woken : Nat) (s : Supervisor) :
    wakeLoop cap (queue.map ρ) woken (s.rename ρ) =
      ((wakeLoop cap queue woken s).1, (wakeLoop cap queue woken s).2.1.map ρ,
        (wakeLoop cap queue woken s).2.2.rename ρ) := by
  induction queue generalizing woken s with
  | nil => rfl
  | cons t rest ih =>
    have hMem : ρ t ∈ (s.rename ρ).blocked ↔ t ∈ s.blocked := Finset.mem_map' ρ
    have hWoken : ({ s.rename ρ with
        blocked := (s.rename ρ).blocked.erase (ρ t) } : Supervisor).enqueue (ρ t) =
        (({ s with blocked := s.blocked.erase t } : Supervisor).enqueue t).rename ρ := by
      simp [enqueue, rename, Finset.map_erase]
    simp only [List.map_cons, wakeLoop, hMem, hWoken, ih]
    split
    · split
      · rfl
      · rfl
    · rfl

theorem wake_rename (s : Supervisor) (addr val : U64) :
    (s.rename ρ).wake addr val = ((s.wake addr val).1, (s.wake addr val).2.rename ρ) := by
  simp only [wake]
  split
  · rfl
  · have hGet : (s.rename ρ).waiting.get addr = (s.waiting.get addr).map (List.map ρ) :=
      get_mapValues _ _ _
    rw [hGet]
    cases s.waiting.get addr with
    | none => rfl
    | some queue =>
      have hErased : ({ s.rename ρ with waiting := (s.rename ρ).waiting.erase addr } : Supervisor) =
          ({ s with waiting := s.waiting.erase addr } : Supervisor).rename ρ := by
        simp [rename, mapValues_erase]
      simp only [Option.map_some, hErased, wakeLoop_rename, List.map_eq_nil_iff]
      split
      · rfl
      · simp [rename, mapValues_insert]

theorem dropFrom_rename (p : Pid) (queue : List Pid) :
    dropFrom (ρ p) (queue.map ρ) = (dropFrom p queue).map (List.map ρ) := by
  have hFilter : (queue.map ρ).filter (fun q => q ≠ ρ p) = (queue.filter fun q => q ≠ p).map ρ := by
    rw [List.filter_map]
    congr 2
    funext q
    simp
  simp only [dropFrom, hFilter, List.map_eq_nil_iff]
  split
  · rfl
  · rfl

theorem forget_rename (s : Supervisor) (p : Pid) :
    (s.rename ρ).forget (ρ p) = (s.forget p).rename ρ := by
  have hFilter : (s.runnable.map ρ).filter (fun q => q ≠ ρ p) =
      (s.runnable.filter fun q => q ≠ p).map ρ := by
    rw [List.filter_map]
    congr 2
    funext q
    simp
  simp only [forget, rename, hFilter, Finset.map_erase, renameKeys_erase,
    filterMapValues_mapValues (List.map ρ) (dropFrom_rename p)]

theorem clearTidWake_rename (s : Supervisor) (t : Thread) :
    (s.rename ρ).clearTidWake t = (s.clearTidWake t).rename ρ := by
  simp only [clearTidWake, wake_rename]
  split
  · rfl
  · rfl

theorem onThreadExit_rename (s : Supervisor) (p : Pid) (record : Bool) :
    (s.rename ρ).onThreadExit (ρ p) record = (s.onThreadExit p record).rename ρ := by
  have hGet : (s.rename ρ).threads.get (ρ p) = s.threads.get p := get_renameKeys _ _ _
  simp only [onThreadExit, hGet]
  cases s.threads.get p with
  | none => exact forget_rename s p
  | some t =>
    have hErased : ({ s.rename ρ with threads := (s.rename ρ).threads.erase (ρ p) } : Supervisor) =
        ({ s with threads := s.threads.erase p } : Supervisor).rename ρ := by
      simp [rename, renameKeys_erase]
    have hPending (v : Supervisor) :
        ({ v.rename ρ with pending := (v.rename ρ).pending.erase (ρ p) } : Supervisor).forget (ρ p) =
          (({ v with pending := v.pending.erase p } : Supervisor).forget p).rename ρ := by
      rw [← forget_rename]
      simp [rename, renameKeys_erase]
    simp only [hErased, clearTidWake_rename]
    cases record with
    | true =>
      exact hPending
        ((({ s with threads := s.threads.erase p } : Supervisor).clearTidWake t).traceJson
          "thread_exit" [("tid", .num t.vtid)])
    | false => exact hPending (({ s with threads := s.threads.erase p } : Supervisor).clearTidWake t)

theorem virtualClock_rename (s : Supervisor) (clk : U32) :
    (s.rename ρ).virtualClock clk = ((s.virtualClock clk).1, (s.virtualClock clk).2.rename ρ) := by
  simp only [virtualClock]
  split
  · rfl
  · split
    · rfl
    · rfl

end Supervisor

/-! ## The handlers -/

abbrev Equivariant (ρ : Pid ↪ Pid) {α β : Type} (g : α → β) (x : SupM α) (x' : SupM β) : Prop :=
  Commutes (Supervisor.rename ρ) g x x'

theorem ptraceResult_map {α β : Type} (g : α → β) (r : Except Errno α) :
    Equivariant ρ g (ptraceResult r) (ptraceResult (r.map g)) := by
  cases r with
  | ok a => exact .pure a
  | error e => exact .throw _

theorem ptraceResult_same {α : Type} (r : Except Errno α) :
    Equivariant ρ id (ptraceResult r) (ptraceResult r) := by
  cases r with
  | ok a => exact .pure a
  | error e => exact .throw _

namespace Answers.Renames

variable (h : k.Renames ρ k')
include h

theorem ptraceSyscall (p : Pid) (sig : Option Signal) :
    Equivariant ρ id (ptraceSyscall k p sig) (ptraceSyscall k' (ρ p) sig) := by
  simp only [Dtrun.ptraceSyscall, h.syscall]
  refine .bind (ptraceResult_same _) fun _ => .modify fun s => ?_
  simp [Supervisor.rename, Effect.rename]

theorem ptraceSetregs (p : Pid) (regs : Regs) :
    Equivariant ρ id (ptraceSetregs k p regs) (ptraceSetregs k' (ρ p) regs) := by
  simp only [Dtrun.ptraceSetregs, h.setregs]
  refine .bind (ptraceResult_same _) fun _ => .modify fun s => ?_
  simp [Supervisor.rename, Effect.rename]

theorem readU32 (p : Pid) (addr : U64) : readU32 k' (ρ p) addr = readU32 k p addr := by
  simp only [Dtrun.readU32, h.readMem]

theorem writeProcMem (p : Pid) (addr : U64) (data : List Byte) :
    Equivariant ρ id (writeProcMem k p addr data) (writeProcMem k' (ρ p) addr data) := by
  simp only [Dtrun.writeProcMem, h.writeMem]
  cases k.writeMem p addr data with
  | error e => exact .throw _
  | ok n =>
    refine .modify fun s => ?_
    simp [Supervisor.rename, Effect.rename]

theorem resumeThread (p : Pid) :
    Equivariant ρ id (resumeThread k p) (resumeThread k' (ρ p)) := by
  refine .get_bind fun s => ?_
  have hSig : (s.rename ρ).sigPending.get (ρ p) = s.sigPending.get p := get_renameKeys _ _ _
  rw [hSig]
  refine .set_bind ?_ (h.ptraceSyscall p _ _)
  simp [Supervisor.rename, renameKeys_erase]

theorem resumeCurrent (p : Pid) :
    Equivariant ρ id (resumeCurrent k p) (resumeCurrent k' (ρ p)) := by
  refine .get_bind fun s => ?_
  simp only [s.current_rename]
  split
  · exact h.resumeThread p s
  · exact .pure _

theorem runThread (p : Pid) (thread : Thread) :
    Equivariant ρ id (runThread k p thread) (runThread k' (ρ p) thread) := by
  refine .get_bind fun s => .set_bind ?_ (h.resumeThread p _)
  have hLast : (s.rename ρ).lastVtid = s.lastVtid := rfl
  rw [hLast]
  split
  · rfl
  · rfl

theorem scheduleLoop (queue : List Pid) :
    Equivariant ρ id (scheduleLoop k queue) (scheduleLoop k' (queue.map ρ)) := by
  induction queue with
  | nil =>
    refine .get_bind fun s => ?_
    have hExpected : (s.rename ρ).pendingStart.Nonempty ↔ s.pendingStart.Nonempty :=
      Finset.map_nonempty
    simp only [hExpected, s.anyConcurrent_rename]
    split
    · exact .pure _
    · exact .throw _
  | cons tid rest ih =>
    refine .bind (g := id) (.modify fun s => rfl) fun _ => .get_bind fun s => ?_
    have hGet : (s.rename ρ).threads.get (ρ tid) = s.threads.get tid := get_renameKeys _ _ _
    rw [hGet]
    cases s.threads.get tid with
    | none => exact ih s
    | some thread =>
      have hBlocked : ρ tid ∈ (s.rename ρ).blocked ↔ tid ∈ s.blocked := Finset.mem_map' ρ
      simp only [hBlocked]
      split
      · exact ih s
      · exact h.runThread tid thread s

theorem scheduleNext : Equivariant ρ id (scheduleNext k) (scheduleNext k') :=
  .get_bind fun s => h.scheduleLoop s.runnable s

theorem yieldCurrent (p : Pid) :
    Equivariant ρ id (yieldCurrent k p) (yieldCurrent k' (ρ p)) := by
  refine .bind (g := id) (.modify fun s => ?_) fun _ => h.scheduleNext
  simp only [s.current_rename]
  split
  · rw [← Supervisor.enqueue_rename]
    rfl
  · rfl

theorem release (p : Pid) : Equivariant ρ id (release k p) (release k' (ρ p)) := by
  refine .get_bind fun s => ?_
  rw [s.isScheduled_rename]
  split
  · exact .modify (s.enqueue_rename p)
  · exact h.resumeThread p s

theorem resumeTask (p : Pid) : Equivariant ρ id (resumeTask k p) (resumeTask k' (ρ p)) := by
  refine .get_bind fun s => ?_
  rw [s.isScheduled_rename]
  split
  · exact h.resumeCurrent p s
  · exact h.resumeThread p s

theorem registerThread (p : Pid) (info : CloneInfo) :
    Equivariant ρ id (registerThread k p info) (registerThread k' (ρ p) info) := by
  refine .get_bind fun s => ?_
  rw [s.registered_rename]
  split
  · exact .pure _
  · refine .set_bind ?_ ?_
    · simp [Supervisor.rename, renameKeys_insert]
    · have hSeen : ρ p ∈ (s.rename ρ).stoppedPending ↔ p ∈ s.stoppedPending := Finset.mem_map' ρ
      have record (vtid : Nat) (scheduled : Bool) : Equivariant ρ id
          (modify (·.traceJson "thread_create"
            [("tid", .num vtid), ("scheduled", .bool scheduled)]))
          (modify (·.traceJson "thread_create"
            [("tid", .num vtid), ("scheduled", .bool scheduled)])) :=
        .modify fun s => s.traceJson_rename _ _
      simp only [hSeen]
      split
      · refine .bind (g := id) (.modify ?_) fun _ t _ => .bind (g := id) (h.release p t) fun _ t _ =>
          record _ _ t
        simp [Supervisor.rename, Finset.map_erase]
      · refine .bind (g := id) (.modify ?_) fun _ t _ => record _ _ t
        simp [Supervisor.rename]

theorem skipSyscall (p : Pid) (syscall : Int) (retval : U64) :
    Equivariant ρ id (skipSyscall k p syscall retval) (skipSyscall k' (ρ p) syscall retval) := by
  simp only [Dtrun.skipSyscall, h.getregs]
  refine .bind (ptraceResult_same _) fun regs => .bind (h.ptraceSetregs p _) fun _ =>
    .modify fun s => ?_
  simp [Supervisor.rename, renameKeys_insert]

theorem interceptGetrandom (p : Pid) (regs : Regs) :
    Equivariant ρ id (interceptGetrandom k p regs) (interceptGetrandom k' (ρ p) regs) := by
  have skip (retval : U64) (buflen : Nat) (out : List Byte) : Equivariant ρ id
      (do
        Dtrun.skipSyscall k p SYS_getrandom retval
        modify (·.traceJson "getrandom" [("nbytes", .num buflen), ("bytes", .str (hexBytes out))]))
      (do
        Dtrun.skipSyscall k' (ρ p) SYS_getrandom retval
        modify (·.traceJson "getrandom"
          [("nbytes", .num buflen), ("bytes", .str (hexBytes out))])) :=
    .bind (h.skipSyscall p _ _) fun _ => .modify fun s => s.traceJson_rename _ _
  refine .get_bind fun s => .set_bind rfl ?_
  dsimp only
  split
  · exact .bind (h.writeProcMem p _ _ _) fun _ t _ => skip _ _ _ t
  · exact skip _ _ _ _

theorem interceptClockGettime (p : Pid) (regs : Regs) :
    Equivariant ρ id (interceptClockGettime k p regs) (interceptClockGettime k' (ρ p) regs) := by
  refine .get_bind fun s => ?_
  rw [s.virtualClock_rename]
  exact .set_bind rfl <| .bind (h.writeProcMem p _ _ _) fun _ t _ =>
    .bind (h.skipSyscall p _ _ t) fun _ t _ => .modify (t.traceJson_rename _ _)

theorem interceptGettimeofday (p : Pid) (regs : Regs) :
    Equivariant ρ id (interceptGettimeofday k p regs) (interceptGettimeofday k' (ρ p) regs) := by
  refine .get_bind fun s => ?_
  rw [s.virtualClock_rename]
  exact .set_bind rfl <| .bind (h.writeProcMem p _ _ _) fun _ t _ =>
    .bind (h.skipSyscall p _ _ t) fun _ t _ => .modify (t.traceJson_rename _ _)

theorem interceptFutex (p : Pid) (regs : Regs) :
    Equivariant ρ id (interceptFutex k p regs) (interceptFutex k' (ρ p) regs) := by
  have note (op kind : String) : Equivariant ρ id
      (do modify (·.traceFutex p op kind); pure false)
      (do modify (·.traceFutex (ρ p) op kind); pure false) :=
    .bind (.modify fun s => s.traceFutex_rename p _ _) fun _ => .pure false
  refine .get_bind fun s => ?_
  simp only [s.isScheduled_rename, s.scheduledCount_rename, h.readU32,
    Supervisor.wake_rename]
  split
  · exact note _ _ s
  split
  · split
    · refine .bind (h.skipSyscall p _ _ s) fun _ t _ => ?_
      refine .bind (g := id) (.modify ?_) fun _ t _ => .pure true
      rw [Supervisor.block_rename, Supervisor.traceFutex_rename]
    · exact note _ _ s
  split
  · exact .set_bind rfl <| .bind (h.skipSyscall p _ _ _) fun _ t _ => note _ _ t
  split
  · split
    · exact note _ _ s
    · exact .set_bind rfl <| .bind (h.skipSyscall p _ _ _) fun _ t _ => note _ _ t
  · exact note _ _ s

theorem stashClone (p : Pid) (nr : Int) (regs : Regs) :
    Equivariant ρ id (stashClone k p nr regs) (stashClone k' (ρ p) nr regs) := by
  refine .modify fun s => ?_
  simp [Supervisor.rename, renameKeys_insert, cloneArgs, h.readMem]

theorem onSyscallEntry (p : Pid) :
    Equivariant ρ id (onSyscallEntry k p) (onSyscallEntry k' (ρ p)) := by
  simp only [Dtrun.onSyscallEntry, h.getregs]
  refine .bind (ptraceResult_same _) fun regs => ?_
  dsimp only [id_eq]
  split
  · exact .bind (h.interceptGetrandom p regs) fun _ => .pure false
  split
  · exact .bind (h.interceptClockGettime p regs) fun _ => .pure false
  split
  · exact .bind (h.interceptGettimeofday p regs) fun _ => .pure false
  split
  · exact h.interceptFutex p regs
  split
  · exact .bind (g := id) (.modify fun s => rfl) fun _ => .pure false
  split
  · exact .bind (h.stashClone p _ regs) fun _ =>
      .bind (g := id) (.modify fun s => rfl) fun _ => .pure false
  · exact .bind (g := id) (.modify fun s => rfl) fun _ => .pure false

theorem onSyscallExit (p : Pid) :
    Equivariant ρ id (onSyscallExit k p) (onSyscallExit k' (ρ p)) := by
  simp only [Dtrun.onSyscallExit, h.getregs]
  refine .get_bind fun s => .set_bind ?_ ?_
  · simp [Supervisor.rename, renameKeys_erase]
  · have hGet : (s.rename ρ).pending.get (ρ p) = s.pending.get p := get_renameKeys _ _ _
    rw [hGet]
    cases s.pending.get p with
    | none => exact .pure _
    | some inject =>
      exact .bind (ptraceResult_same _ _) fun regs t _ =>
        .bind (h.ptraceSetregs p _ t) fun _ t _ => .modify rfl

theorem dispatchSyscall (p : Pid) :
    Equivariant ρ id (dispatchSyscall k p) (dispatchSyscall k' (ρ p)) := by
  simp only [Dtrun.dispatchSyscall, h.syscallInfo]
  refine .bind (ptraceResult_same _) fun op => .get_bind fun s => ?_
  dsimp only [id_eq]
  rw [s.isScheduled_rename]
  split
  · cases op with
    | entry => exact .bind ((h.onSyscallEntry p).discard s) fun _ t _ => h.resumeThread p t
    | exit => exact .bind (h.onSyscallExit p s) fun _ t _ => h.resumeThread p t
    | none => exact h.resumeThread p s
    | seccomp => exact h.resumeThread p s
  · cases op with
    | entry =>
      refine .bind (h.onSyscallEntry p s) fun parked t _ => ?_
      cases parked with
      | true => exact .modify rfl
      | false => exact h.resumeCurrent p t
    | exit => exact .bind (h.onSyscallExit p s) fun _ t _ => h.yieldCurrent p t
    | none => exact h.resumeCurrent p s
    | seccomp => exact h.resumeCurrent p s

theorem dispatchClone (p : Pid) :
    Equivariant ρ (Flow.rename ρ) (dispatchClone k p) (dispatchClone k' (ρ p)) := by
  simp only [Dtrun.dispatchClone, h.getevent]
  refine .bind (ptraceResult_map ρ _) fun child => .get_bind fun s => ?_
  have hGet : (s.rename ρ).clonePending.get (ρ p) = s.clonePending.get p := get_renameKeys _ _ _
  rw [hGet]
  refine .set_bind ?_ <| .bind (h.registerThread child _ _) fun _ _ _ => .get_bind ?_
  · simp [Supervisor.rename, renameKeys_erase]
  · rename_i v _
    have hStart : ρ child ∈ (v.rename ρ).pendingStart ↔ child ∈ v.pendingStart := Finset.mem_map' ρ
    simp only [hStart]
    split
    · exact .pure _
    · exact .bind (h.resumeTask p v) fun _ _ _ => .pure _

theorem dispatchStopped (p : Pid) (sig : Signal) :
    Equivariant ρ id (dispatchStopped k p sig) (dispatchStopped k' (ρ p) sig) := by
  refine .get_bind fun s => ?_
  have hStart : ρ p ∈ (s.rename ρ).pendingStart ↔ p ∈ s.pendingStart := Finset.mem_map' ρ
  simp only [s.current_rename, hStart, s.registered_rename, s.isScheduled_rename]
  split
  · split
    · exact h.resumeThread p s
    split
    · refine .set_bind ?_ (h.release p _)
      simp [Supervisor.rename, Finset.map_erase]
    split
    · refine .set ?_
      simp [Supervisor.rename]
    · exact .pure _
  · split
    · exact h.ptraceSyscall p _ s
    split
    · refine .set ?_
      simp [Supervisor.rename, renameKeys_insert]
    split
    · exact h.ptraceSyscall p _ s
    · exact .pure _

theorem dispatchExit (p : Pid) :
    Equivariant ρ id (dispatchExit k p) (dispatchExit k' (ρ p)) := by
  refine .get_bind fun s => ?_
  simp only [s.current_rename, s.onThreadExit_rename]
  refine .set_bind rfl <| .get_bind ?_
  have hFlag (v : Supervisor) : (v.rename ρ).groupExiting = v.groupExiting := rfl
  simp only [hFlag]
  split
  · exact .bind (g := id) (.modify rfl) fun _ t _ => h.scheduleNext t
  · exact .pure _

theorem dispatch (status : WaitStatus) :
    Equivariant ρ (Flow.rename ρ) (dispatch k status) (dispatch k' (status.rename ρ)) := by
  have next {x x' : SupM Unit} (hx : Equivariant ρ id x x') : Equivariant ρ (Flow.rename ρ)
      (do x; pure .next) (do x'; pure .next) := .bind hx fun _ => .pure _
  -- the init's own death ends the run, any other one goes to `dispatchExit`
  have death {p : Pid} {code : Int} {note note' : Supervisor → Supervisor}
      (hNote : ∀ s, note' (Supervisor.rename ρ s) = (note s).rename ρ) :
      Equivariant ρ (Flow.rename ρ)
        (do
          if p = (← get).pid then
            modify note
            pure (.exit code)
          else
            Dtrun.dispatchExit k p
            pure .next)
        (do
          if ρ p = (← get).pid then
            modify note'
            pure (.exit code)
          else
            Dtrun.dispatchExit k' (ρ p)
            pure .next) := by
    refine .get_bind fun s => ?_
    have hInit : ρ p = (s.rename ρ).pid ↔ p = s.pid := ρ.apply_eq_iff_eq p s.pid
    simp only [hInit]
    split
    · exact .bind (g := id) (.modify (hNote s)) fun _ _ _ => .pure _
    · exact next (h.dispatchExit p) s
  cases status with
  | ptraceSyscall p => exact next (h.dispatchSyscall p)
  | ptraceEvent p sig event =>
    cases event with
    | clone => exact h.dispatchClone p
    | fork => exact h.dispatchClone p
    | vfork => exact h.dispatchClone p
    | exit => exact next (h.resumeThread p)
    | exec => exact next (h.resumeTask p)
    | vforkDone => exact next (h.resumeTask p)
    | seccomp => exact next (h.resumeTask p)
    | stop => exact next (h.resumeTask p)
  | stopped p sig => exact next (h.dispatchStopped p sig)
  | exited p code => exact death fun _ => rfl
  | signaled p sig core => exact death fun _ => rfl
  | continued p => exact .pure _
  | stillAlive => exact .pure _

theorem runTail : Equivariant ρ id (runTail k) (runTail k') := by
  refine .get_bind fun s => ?_
  simp only [s.current_rename_none]
  split
  · exact h.scheduleNext s
  · exact .pure _

theorem pass (awaits : List Await) (status : WaitStatus) :
    Equivariant ρ (Turn.rename ρ) (pass k awaits status)
      (pass k' (awaits.map (Await.rename ρ)) (status.rename ρ)) := by
  cases awaits with
  | nil =>
    refine .bind (h.dispatch status) fun flow => ?_
    cases flow with
    | next => exact .bind h.runTail fun _ => .pure _
    | exit code => exact .pure _
    | await w => exact .pure _
  | cons w outer =>
    have hStop : status.rename ρ = .stopped (w.rename ρ).child .SIGSTOP ↔
        status = .stopped w.child .SIGSTOP := by
      cases status <;> simp [WaitStatus.rename, Await.rename]
    simp only [Dtrun.pass, List.map_cons, awaitPass, hStop, List.map_eq_nil_iff]
    split
    · refine .bind (g := id) (.modify fun s => ?_) fun _ => .bind (h.release _) fun _ =>
        .bind (h.resumeTask _) fun _ => ?_
      · simp [Supervisor.rename, Await.rename, Finset.map_erase]
      · split
        · exact .bind h.runTail fun _ => .pure _
        · exact .pure _
    · refine .bind (h.dispatch status) fun flow => ?_
      cases flow with
      | next => exact .pure _
      | exit code => exact .pure _
      | await inner => exact .pure _

end Answers.Renames

namespace Machine

theorem settle_rename (log : List Effect) (result : EStateM.Result SuperviseError Supervisor Turn) :
    settle (log.map (Effect.rename ρ)) (changeResult (Supervisor.rename ρ) (Turn.rename ρ) result) =
      (settle log result).rename ρ := by
  cases result with
  | error e s => simp [changeResult, settle, rename, Supervisor.rename]
  | ok turn s => cases turn <;> simp [changeResult, settle, rename, Supervisor.rename, Turn.rename]

theorem start_rename (pid : Pid) (seed : U64) (h : k.Renames ρ k') :
    start (ρ pid) seed k' = (start pid seed k).rename ρ := by
  have hFresh : fresh (ρ pid) seed = (fresh pid seed).rename ρ := rfl
  have hBoot : Equivariant ρ (Turn.rename ρ) (boot k) (boot k') :=
    .bind h.scheduleNext fun _ => .pure _
  rw [start, hFresh, hBoot]
  exact settle_rename [] _

theorem step_rename (m : Machine) {r r' : Report} (h : r.Renames ρ r') :
    (m.rename ρ).step r' = (m.step r).rename ρ := by
  have hResult : (m.rename ρ).result = m.result := rfl
  simp only [step, hResult]
  cases m.result with
  | some result => rfl
  | none =>
    have hHandle : Equivariant ρ (Turn.rename ρ) (handle m.awaits r)
        (handle (m.rename ρ).awaits r') := by
      simp only [handle, h.status]
      cases r.status with
      | error e => exact .throw _
      | ok status => exact h.answers.pass m.awaits status
    have hNow := hHandle { m.sv with effects := [] }
    exact (congrArg (settle (m.rename ρ).log) hNow).trans (settle_rename m.log _)

theorem rename_steps (m : Machine) {reports reports' : List Report}
    (h : List.Forall₂ (Report.Renames ρ) reports reports') :
    (m.rename ρ).steps reports' = (m.steps reports).rename ρ := by
  induction h generalizing m with
  | nil => rfl
  | cons hFirst _ ih =>
    simp only [steps, List.foldl_cons, step_rename m hFirst]
    exact ih _

/-- Renaming the pids in everything that the supervisor is told renames its state, and changes
neither the records nor the result. -/
theorem steps_rename {pid : Pid} {seed : U64} {reports reports' : List Report}
    (hStart : k.Renames ρ k') (hReports : List.Forall₂ (Report.Renames ρ) reports reports') :
    ((start (ρ pid) seed k').steps reports').sv.trace =
        ((start pid seed k).steps reports).sv.trace ∧
      ((start (ρ pid) seed k').steps reports').result =
        ((start pid seed k).steps reports).result ∧
      (start (ρ pid) seed k').steps reports' = ((start pid seed k).steps reports).rename ρ := by
  have hMachine : (start (ρ pid) seed k').steps reports' =
      ((start pid seed k).steps reports).rename ρ := by
    rw [start_rename pid seed hStart]
    exact rename_steps _ hReports
  rw [hMachine]
  exact ⟨rfl, rfl, rfl⟩

/-- The init creates a thread and gives way to it. -/
def createsThread (init thread : Pid) : List Report :=
  [.enters init { origRax := 56, rdi := threadFlags }, .created init .clone thread,
   .plain (.stopped thread .SIGSTOP), .leaves init]

def shift : Pid ↪ Pid := ⟨fun p => p + 100, add_left_injective 100⟩

theorem steps_rename_creates_thread :
    ((start 101 0 {}).steps (createsThread 101 102)).sv.trace =
        ((start 1 0 {}).steps (createsThread 1 2)).sv.trace ∧
      ((start 101 0 {}).steps (createsThread 101 102)).result =
        ((start 1 0 {}).steps (createsThread 1 2)).result ∧
      (start 101 0 {}).steps (createsThread 101 102) =
        ((start 1 0 {}).steps (createsThread 1 2)).rename shift := by
  have hAnswers : Answers.Renames shift {} {} :=
    ⟨fun _ => rfl, fun _ => rfl, fun _ => rfl, fun _ => rfl, fun _ => rfl, fun _ => rfl,
      fun _ => rfl⟩
  have hReports : List.Forall₂ (Report.Renames shift) (createsThread 1 2)
      (createsThread 101 102) := by
    refine .cons ⟨rfl, ?_⟩ (.cons ⟨rfl, ?_⟩ (.cons ⟨rfl, hAnswers⟩ (.cons ⟨rfl, ?_⟩ .nil)))
    · exact { hAnswers with syscallInfo := fun _ => rfl, getregs := fun _ => rfl }
    · exact { hAnswers with getevent := fun _ => rfl }
    · exact { hAnswers with syscallInfo := fun _ => rfl }
  exact @steps_rename shift {} {} 1 0 _ _ hAnswers hReports

end Machine

end Dtrun
