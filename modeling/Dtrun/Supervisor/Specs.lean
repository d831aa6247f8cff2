import Dtrun.Supervisor.Machine
import Dtrun.Supervisor.Queues

/-! # What each handler does when it succeeds

One inversion lemma for each function of the supervisor that asks the kernel. Later proofs cite
these and do not unfold the handlers again.
-/
namespace Dtrun
set_option autoImplicit false
open FiniteMap StateExcept

variable {k : Answers} {p : Pid} {s t : Supervisor} {u : Unit}

namespace Supervisor

/-- The state after `resume_thread(p)`: the pending signal is spent. -/
def resumed (s : Supervisor) (p : Pid) : Supervisor :=
  { s with
    sigPending := s.sigPending.erase p
    effects := s.effects ++ [.resume p (s.sigPending.get p)] }

/-- The state after a direct `ptrace::syscall(p, Some(sig))`. -/
def delivered (s : Supervisor) (p : Pid) (sig : Signal) : Supervisor :=
  { s with effects := s.effects ++ [.resume p (some sig)] }

/-- `current` names `p`, and the move of control is recorded. -/
def scheduled (s : Supervisor) (p : Pid) (thread : Thread) : Supervisor :=
  let s := if s.lastVtid ≠ some thread.vtid then
      s.traceJson "schedule" [("from", vtidOf s.lastVtid), ("to", .num thread.vtid)]
    else s
  { s with lastVtid := some thread.vtid, current := some p }

theorem scheduled_frame (s : Supervisor) (p : Pid) (thread : Thread) :
    s.scheduled p thread = { s with
      seq := (s.scheduled p thread).seq
      trace := (s.scheduled p thread).trace
      lastVtid := some thread.vtid
      current := some p } := by
  simp only [scheduled]
  split
  · rfl
  · rfl

end Supervisor

open Supervisor

theorem ptraceResult_ok {α : Type} {r : Except Errno α} {a : α} :
    ptraceResult r s = .ok a t ↔ r = .ok a ∧ s = t := by
  cases r with
  | ok b => simp [ptraceResult]
  | error e => simp [ptraceResult]

theorem ptraceResult_error {α : Type} {r : Except Errno α} {e : SuperviseError} :
    ptraceResult r s = .error e t ↔ ∃ n, r = .error n ∧ e = .ptrace n ∧ t = s := by
  cases r with
  | ok b => simp [ptraceResult]
  | error n => simp [ptraceResult, eq_comm]

theorem ptraceSyscall_ok {sig : Option Signal} : ptraceSyscall k p sig s = .ok u t ↔
    k.syscall p = .ok () ∧ t = { s with effects := s.effects ++ [.resume p sig] } := by
  simp only [ptraceSyscall, bind_ok_iff, ptraceResult_ok, modify_apply]
  constructor
  · rintro ⟨_, _, ⟨h, rfl⟩, ⟨⟩⟩
    exact ⟨h, rfl⟩
  · rintro ⟨h, rfl⟩
    exact ⟨(), s, ⟨h, rfl⟩, rfl⟩

theorem resumeThread_ok :
    resumeThread k p s = .ok u t ↔ k.syscall p = .ok () ∧ t = s.resumed p := by
  simp only [resumeThread, bind_ok_iff, get_apply, set_apply, ptraceSyscall_ok]
  constructor
  · rintro ⟨_, _, ⟨⟩, _, _, ⟨⟩, h, rfl⟩
    exact ⟨h, rfl⟩
  · rintro ⟨h, rfl⟩
    exact ⟨_, _, rfl, _, _, rfl, h, rfl⟩

theorem resumeCurrent_ok (h : resumeCurrent k p s = .ok u t) :
    (s.current = some p ∧ k.syscall p = .ok () ∧ t = s.resumed p) ∨
      (s.current ≠ some p ∧ t = s) := by
  simp only [resumeCurrent, bind_ok_iff, get_apply] at h
  obtain ⟨_, _, ⟨⟩, h⟩ := h
  split at h
  · rename_i hCurrent
    exact .inl ⟨hCurrent, resumeThread_ok.mp h⟩
  · rename_i hCurrent
    cases h
    exact .inr ⟨hCurrent, rfl⟩

/-- A task goes on after its event: it was resumed, or it is a scheduled thread that is not
current and stays where it is. -/
theorem resumeTask_ok (h : resumeTask k p s = .ok u t) :
    (k.syscall p = .ok () ∧ t = s.resumed p ∧ (s.isScheduled p = true → s.current = some p)) ∨
      (s.isScheduled p = true ∧ s.current ≠ some p ∧ t = s) := by
  simp only [resumeTask, bind_ok_iff, get_apply] at h
  obtain ⟨_, _, ⟨⟩, h⟩ := h
  split at h
  · rename_i hScheduled
    rcases resumeCurrent_ok h with ⟨hCurrent, hOk, rfl⟩ | ⟨hCurrent, rfl⟩
    · exact .inl ⟨hOk, rfl, fun _ => hCurrent⟩
    · exact .inr ⟨hScheduled, hCurrent, rfl⟩
  · rename_i hScheduled
    obtain ⟨hOk, rfl⟩ := resumeThread_ok.mp h
    exact .inl ⟨hOk, rfl, fun hs => absurd hs hScheduled⟩

theorem release_ok (h : release k p s = .ok u t) :
    (s.isScheduled p = true ∧ t = s.enqueue p) ∨
      (s.isScheduled p = false ∧ k.syscall p = .ok () ∧ t = s.resumed p) := by
  simp only [release, bind_ok_iff, get_apply] at h
  obtain ⟨_, _, ⟨⟩, h⟩ := h
  split at h
  · rename_i hScheduled
    cases h
    exact .inl ⟨hScheduled, rfl⟩
  · rename_i hScheduled
    exact .inr ⟨by simpa using hScheduled, resumeThread_ok.mp h⟩

theorem release_frame (h : release k p s = .ok u t) :
    t.threads = s.threads ∧ t.pendingStart = s.pendingStart ∧ t.current = s.current := by
  rcases release_ok h with ⟨_, rfl⟩ | ⟨_, _, rfl⟩
  · exact ⟨rfl, rfl, rfl⟩
  · exact ⟨rfl, rfl, rfl⟩

theorem runThread_ok {thread : Thread} (h : runThread k p thread s = .ok u t) :
    k.syscall p = .ok () ∧ t = (s.scheduled p thread).resumed p := by
  simp only [runThread, bind_ok_iff, get_apply, set_apply] at h
  obtain ⟨_, _, ⟨⟩, _, _, ⟨⟩, h⟩ := h
  exact resumeThread_ok.mp h

/-- Whether the loop of `schedule_next` passes over `q`. -/
def Supervisor.Skips (s : Supervisor) (q : Pid) : Prop := s.registered q = false ∨ q ∈ s.blocked

/-- How `schedule_next` succeeds: it runs the first thread of the queue that it does not pass over,
or it finds none while a stop is still expected. -/
inductive Picks (k : Answers) (s : Supervisor) : Supervisor → Prop
  | idle (hSkips : ∀ q ∈ s.runnable, s.Skips q)
      (hExpected : s.pendingStart.Nonempty ∨ s.anyConcurrent = true) :
      Picks k s { s with runnable := [] }
  | run {skipped rest : List Pid} {tid : Pid} {thread : Thread}
      (hQueue : s.runnable = skipped ++ tid :: rest) (hSkips : ∀ q ∈ skipped, s.Skips q)
      (hLookup : s.threads.get tid = some thread) (hBlocked : tid ∉ s.blocked)
      (hOk : k.syscall tid = .ok ()) :
      Picks k s ((({ s with runnable := rest } : Supervisor).scheduled tid thread).resumed tid)

theorem Picks.cons {tid : Pid} {rest : List Pid} (hQueue : s.runnable = tid :: rest)
    (hSkip : s.Skips tid) (h : Picks k { s with runnable := rest } t) : Picks k s t := by
  cases h with
  | idle hSkips hExpected =>
    refine .idle (fun q hq => ?_) hExpected
    rw [hQueue] at hq
    rcases List.mem_cons.mp hq with rfl | hq
    · exact hSkip
    · exact hSkips q hq
  | @run skipped after tid' thread hRest hSkips hLookup hBlocked hOk =>
    have hWhole : s.runnable = (tid :: skipped) ++ tid' :: after :=
      hQueue.trans (congrArg (tid :: ·) hRest)
    refine .run hWhole (fun q hq => ?_) hLookup hBlocked hOk
    rcases List.mem_cons.mp hq with rfl | hq
    · exact hSkip
    · exact hSkips q hq

theorem scheduleLoop_ok {queue : List Pid} (hQueue : s.runnable = queue)
    (h : scheduleLoop k queue s = .ok u t) : Picks k s t := by
  induction queue generalizing s with
  | nil =>
    simp only [scheduleLoop, bind_ok_iff, get_apply] at h
    obtain ⟨_, _, ⟨⟩, h⟩ := h
    split at h
    · rename_i hExpected
      cases h
      have hPicks := Picks.idle (k := k) (s := t) (by simp [hQueue]) hExpected
      rwa [← hQueue] at hPicks
    · cases h
  | cons tid rest ih =>
    simp only [scheduleLoop, bind_ok_iff, get_apply, modify_apply] at h
    obtain ⟨_, _, ⟨⟩, _, _, ⟨⟩, h⟩ := h
    cases hLookup : s.threads.get tid with
    | none =>
      simp only [hLookup] at h
      exact (ih rfl h).cons hQueue (.inl (by simp [registered, hLookup]))
    | some thread =>
      simp only [hLookup] at h
      split at h
      · rename_i hBlocked
        exact (ih rfl h).cons hQueue (.inr hBlocked)
      · rename_i hBlocked
        obtain ⟨hOk, rfl⟩ := runThread_ok h
        have hWhole : s.runnable = [] ++ tid :: rest := hQueue
        exact .run hWhole (by simp) hLookup hBlocked hOk

theorem scheduleNext_ok (h : scheduleNext k s = .ok u t) : Picks k s t := by
  simp only [scheduleNext, bind_ok_iff, get_apply] at h
  obtain ⟨_, _, ⟨⟩, h⟩ := h
  exact scheduleLoop_ok rfl h

theorem runThread_not_deadlock {thread : Thread} :
    runThread k p thread s ≠ .error .deadlock t := by
  simp [runThread, resumeThread, ptraceSyscall, ptraceResult_error]

theorem scheduleLoop_deadlock {queue : List Pid} (hQueue : s.runnable = queue)
    (h : scheduleLoop k queue s = .error .deadlock t) :
    (∀ q ∈ s.runnable, s.Skips q) ∧ s.pendingStart = ∅ ∧ s.anyConcurrent = false ∧
      t = { s with runnable := [] } := by
  induction queue generalizing s with
  | nil =>
    simp only [scheduleLoop, bind_error_iff, get_apply] at h
    obtain h | ⟨_, _, ⟨⟩, h⟩ := h
    · cases h
    · split at h
      · cases h
      · rename_i hExpected
        cases h
        simp only [not_or, Finset.not_nonempty_iff_eq_empty, Bool.not_eq_true] at hExpected
        exact ⟨by simp [hQueue], hExpected.1, hExpected.2, by rw [← hQueue]⟩
  | cons tid rest ih =>
    simp only [scheduleLoop, bind_error_iff, get_apply, modify_apply] at h
    obtain h | ⟨_, _, ⟨⟩, h | ⟨_, _, ⟨⟩, h⟩⟩ := h
    · cases h
    · cases h
    have skip (hSkip : s.Skips tid) (hRest : ∀ q ∈ rest, s.Skips q) (q : Pid)
        (hq : q ∈ s.runnable) : s.Skips q := by
      rw [hQueue] at hq
      rcases List.mem_cons.mp hq with rfl | hq
      · exact hSkip
      · exact hRest q hq
    cases hLookup : s.threads.get tid with
    | none =>
      simp only [hLookup] at h
      obtain ⟨hSkips, hStart, hConcurrent, rfl⟩ := ih rfl h
      exact ⟨skip (.inl (by simp [registered, hLookup])) hSkips, hStart, hConcurrent, rfl⟩
    | some thread =>
      simp only [hLookup] at h
      split at h
      · rename_i hBlocked
        obtain ⟨hSkips, hStart, hConcurrent, rfl⟩ := ih rfl h
        exact ⟨skip (.inr hBlocked) hSkips, hStart, hConcurrent, rfl⟩
      · exact absurd h runThread_not_deadlock

theorem scheduleNext_deadlock (h : scheduleNext k s = .error .deadlock t) :
    (∀ q ∈ s.runnable, s.Skips q) ∧ s.pendingStart = ∅ ∧ s.anyConcurrent = false ∧
      t = { s with runnable := [] } := by
  simp only [scheduleNext, bind_error_iff, get_apply] at h
  obtain h | ⟨_, _, ⟨⟩, h⟩ := h
  · cases h
  · exact scheduleLoop_deadlock rfl h

theorem yieldCurrent_ok (h : yieldCurrent k p s = .ok u t) :
    (s.current = some p ∧ Picks k (({ s with current := none } : Supervisor).enqueue p) t) ∨
      (s.current ≠ some p ∧ Picks k s t) := by
  simp only [yieldCurrent, bind_ok_iff, modify_apply] at h
  obtain ⟨_, _, ⟨⟩, h⟩ := h
  split at h
  · rename_i hCurrent
    exact .inl ⟨hCurrent, scheduleNext_ok h⟩
  · rename_i hCurrent
    exact .inr ⟨hCurrent, scheduleNext_ok h⟩

/-- The requests that let a task run. -/
def Effect.isResume : Effect → Bool
  | .resume _ _ => true
  | _ => false

/-- Nothing that decides who runs has changed, and nobody was resumed. -/
structure Quiet (s t : Supervisor) : Prop where
  threads : t.threads = s.threads
  runnable : t.runnable = s.runnable
  pendingStart : t.pendingStart = s.pendingStart
  stoppedPending : t.stoppedPending = s.stoppedPending
  blocked : t.blocked = s.blocked
  waiting : t.waiting = s.waiting
  current : t.current = s.current
  resumes : t.effects.filter Effect.isResume = s.effects.filter Effect.isResume

namespace Quiet

variable {v : Supervisor}

theorem refl (s : Supervisor) : Quiet s s := ⟨rfl, rfl, rfl, rfl, rfl, rfl, rfl, rfl⟩

theorem trans (h : Quiet s t) (h' : Quiet t v) : Quiet s v where
  threads := h'.threads.trans h.threads
  runnable := h'.runnable.trans h.runnable
  pendingStart := h'.pendingStart.trans h.pendingStart
  stoppedPending := h'.stoppedPending.trans h.stoppedPending
  blocked := h'.blocked.trans h.blocked
  waiting := h'.waiting.trans h.waiting
  current := h'.current.trans h.current
  resumes := h'.resumes.trans h.resumes

theorem traceJson (s : Supervisor) (event : String) (detail : List (String × Value)) :
    Quiet s (s.traceJson event detail) := { refl s with }

theorem setregs (s : Supervisor) (p : Pid) (regs : Regs) :
    Quiet s { s with effects := s.effects ++ [.setregs p regs] } := by
  refine { refl s with resumes := ?_ }
  simp [Effect.isResume]

theorem write (s : Supervisor) (p : Pid) (addr : U64) (data : List Byte) :
    Quiet s { s with effects := s.effects ++ [.write p addr data] } := by
  refine { refl s with resumes := ?_ }
  simp [Effect.isResume]

theorem isScheduled (h : Quiet s t) (p : Pid) : t.isScheduled p = s.isScheduled p := by
  simp only [Supervisor.isScheduled, h.threads]

theorem registered (h : Quiet s t) (p : Pid) : t.registered p = s.registered p := by
  simp only [Supervisor.registered, h.threads]

theorem block (h : Quiet s t) (p : Pid) (addr : U64) :
    Quiet (s.block p addr) (t.block p addr) := by
  refine { h with blocked := ?_, waiting := ?_ }
  · simp only [Supervisor.block, h.blocked]
  · simp only [Supervisor.block, parkedOn, h.waiting]

end Quiet

theorem ptraceSetregs_ok {regs : Regs} : ptraceSetregs k p regs s = .ok u t ↔
    k.setregs p = .ok () ∧ t = { s with effects := s.effects ++ [.setregs p regs] } := by
  simp only [ptraceSetregs, bind_ok_iff, ptraceResult_ok, modify_apply]
  constructor
  · rintro ⟨_, _, ⟨h, rfl⟩, ⟨⟩⟩
    exact ⟨h, rfl⟩
  · rintro ⟨h, rfl⟩
    exact ⟨(), s, ⟨h, rfl⟩, rfl⟩

theorem skipSyscall_ok {syscall : Int} {retval : U64} :
    skipSyscall k p syscall retval s = .ok u t ↔
      ∃ regs, k.getregs p = .ok regs ∧ k.setregs p = .ok () ∧
        t = { s with
          effects := s.effects ++ [.setregs p { regs with origRax := -1 }]
          pending := s.pending.insert p ⟨syscall, retval⟩ } := by
  simp only [skipSyscall, bind_ok_iff, ptraceResult_ok, ptraceSetregs_ok, modify_apply]
  constructor
  · rintro ⟨regs, _, ⟨hGet, rfl⟩, _, _, ⟨hSet, rfl⟩, ⟨⟩⟩
    exact ⟨regs, hGet, hSet, rfl⟩
  · rintro ⟨regs, hGet, hSet, rfl⟩
    exact ⟨regs, s, ⟨hGet, rfl⟩, (), _, ⟨hSet, rfl⟩, rfl⟩

theorem skipSyscall_quiet {syscall : Int} {retval : U64}
    (h : skipSyscall k p syscall retval s = .ok u t) : Quiet s t := by
  obtain ⟨regs, _, _, rfl⟩ := skipSyscall_ok.mp h
  exact { Quiet.setregs s p { regs with origRax := -1 } with }

theorem writeProcMem_ok {addr : U64} {data : List Byte} :
    writeProcMem k p addr data s = .ok u t ↔ ∃ n, k.writeMem p addr data = .ok n ∧
      t = { s with effects := s.effects ++ [.write p addr (data.take n)] } := by
  simp only [writeProcMem]
  cases k.writeMem p addr data with
  | ok n => simp [eq_comm]
  | error e => simp

theorem writeProcMem_quiet {addr : U64} {data : List Byte}
    (h : writeProcMem k p addr data s = .ok u t) : Quiet s t := by
  obtain ⟨n, _, rfl⟩ := writeProcMem_ok.mp h
  exact Quiet.write s p addr _

theorem virtualClock_quiet (s : Supervisor) (clk : U32) : Quiet s (s.virtualClock clk).2 := by
  simp only [virtualClock]
  split
  · exact Quiet.refl s
  · split
    · exact { Quiet.refl s with }
    · exact Quiet.refl s

theorem interceptGetrandom_quiet {regs : Regs} (h : interceptGetrandom k p regs s = .ok u t) :
    Quiet s t := by
  simp only [interceptGetrandom, bind_ok_iff, get_apply, set_apply] at h
  obtain ⟨_, _, ⟨⟩, _, drawn, hSet, h⟩ := h
  have hDrawn : Quiet s drawn := by
    cases hSet
    exact { Quiet.refl s with }
  split at h
  · simp only [bind_ok_iff, modify_apply] at h
    obtain ⟨_, written, hWrite, _, skipped, hSkip, ⟨⟩⟩ := h
    exact ((hDrawn.trans (writeProcMem_quiet hWrite)).trans (skipSyscall_quiet hSkip)).trans
      (.traceJson _ _ _)
  · simp only [bind_ok_iff, modify_apply] at h
    obtain ⟨_, skipped, hSkip, ⟨⟩⟩ := h
    exact (hDrawn.trans (skipSyscall_quiet hSkip)).trans (.traceJson _ _ _)

theorem interceptClockGettime_quiet {regs : Regs}
    (h : interceptClockGettime k p regs s = .ok u t) : Quiet s t := by
  simp only [interceptClockGettime, bind_ok_iff, get_apply, set_apply, modify_apply] at h
  obtain ⟨_, _, ⟨⟩, _, _, ⟨⟩, _, written, hWrite, _, skipped, hSkip, ⟨⟩⟩ := h
  exact (((virtualClock_quiet s _).trans (writeProcMem_quiet hWrite)).trans
    (skipSyscall_quiet hSkip)).trans (.traceJson _ _ _)

theorem interceptGettimeofday_quiet {regs : Regs}
    (h : interceptGettimeofday k p regs s = .ok u t) : Quiet s t := by
  simp only [interceptGettimeofday, bind_ok_iff, get_apply, set_apply, modify_apply] at h
  obtain ⟨_, _, ⟨⟩, _, _, ⟨⟩, _, written, hWrite, _, skipped, hSkip, ⟨⟩⟩ := h
  exact (((virtualClock_quiet s _).trans (writeProcMem_quiet hWrite)).trans
    (skipSyscall_quiet hSkip)).trans (.traceJson _ _ _)

theorem onSyscallExit_quiet (h : onSyscallExit k p s = .ok u t) : Quiet s t := by
  simp only [onSyscallExit, bind_ok_iff, get_apply, set_apply] at h
  obtain ⟨_, _, ⟨⟩, _, _, ⟨⟩, h⟩ := h
  have hTaken : Quiet s { s with pending := s.pending.erase p } := { Quiet.refl s with }
  cases hInject : s.pending.get p with
  | none =>
    simp only [hInject] at h
    cases h
    exact hTaken
  | some inject =>
    simp only [hInject, bind_ok_iff, ptraceResult_ok, ptraceSetregs_ok, modify_apply] at h
    obtain ⟨regs, _, ⟨_, rfl⟩, _, _, ⟨_, rfl⟩, ⟨⟩⟩ := h
    exact (hTaken.trans (.setregs _ _ _)).trans (.traceJson _ _ _)

/-- One wake after another on the same address. -/
def Supervisor.wakes (s : Supervisor) (addr : U64) (vals : List U64) : Supervisor :=
  vals.foldl (fun s val => (s.wake addr val).2) s

theorem Supervisor.Queued.wakes (h : Queued s) (addr : U64) (vals : List U64) :
    ∃ m, Unparked addr m s (s.wakes addr vals) := by
  induction vals generalizing s with
  | nil => exact ⟨0, .none (h.nonempty addr)⟩
  | cons val rest ih =>
    have hFirst := wake_unparked h addr val
    obtain ⟨m, hRest⟩ := ih (h.unparked hFirst)
    exact ⟨_, hFirst.trans hRest⟩

/-- How a syscall entry succeeds: nobody is moved, threads parked on the word in `rdi` are woken,
or the caller is parked there. -/
inductive Entered (k : Answers) (p : Pid) (s : Supervisor) : Bool → Supervisor → Prop
  | quiet {t : Supervisor} : Quiet s t → Entered k p s false t
  | wake {t : Supervisor} {regs : Regs} (vals : List U64) :
      k.getregs p = .ok regs → s.isScheduled p = true → Quiet (s.wakes regs.rdi vals) t →
      Entered k p s false t
  | wait {t : Supervisor} {regs : Regs} :
      k.getregs p = .ok regs → s.isScheduled p = true → Quiet (s.block p regs.rdi) t →
      Entered k p s true t

theorem interceptFutex_ok {regs : Regs} {b : Bool} (hRegs : k.getregs p = .ok regs)
    (h : interceptFutex k p regs s = .ok b t) : Entered k p s b t := by
  have pass (name : String) {b : Bool} {t : Supervisor}
      (h : (do modify (·.traceFutex p name "pass"); pure false : SupM Bool) s = .ok b t) :
      Entered k p s b t := by
    simp only [bind_ok_iff, modify_apply] at h
    obtain ⟨_, _, ⟨⟩, ⟨⟩⟩ := h
    exact .quiet (.traceJson _ _ _)
  simp only [interceptFutex, bind_ok_iff, get_apply] at h
  obtain ⟨_, _, ⟨⟩, h⟩ := h
  split at h
  · exact pass _ h
  · rename_i hMany
    have hScheduled : s.isScheduled p = true := by
      by_contra hNot
      exact hMany (.inl hNot)
    split at h
    · split at h
      · simp only [bind_ok_iff, modify_apply] at h
        obtain ⟨_, skipped, hSkip, _, _, ⟨⟩, ⟨⟩⟩ := h
        exact .wait hRegs hScheduled
          (((skipSyscall_quiet hSkip).block p regs.rdi).trans (.traceJson _ _ _))
      · exact pass _ h
    · split at h
      · simp only [bind_ok_iff, set_apply, modify_apply] at h
        obtain ⟨_, _, ⟨⟩, _, skipped, hSkip, _, _, ⟨⟩, ⟨⟩⟩ := h
        exact .wake [regs.rdx] hRegs hScheduled
          ((skipSyscall_quiet hSkip).trans (.traceJson _ _ _))
      · split at h
        · split at h
          · exact pass _ h
          · simp only [bind_ok_iff, set_apply, modify_apply] at h
            obtain ⟨_, _, ⟨⟩, _, skipped, hSkip, _, _, ⟨⟩, ⟨⟩⟩ := h
            exact .wake [regs.rdx, regs.r10] hRegs hScheduled
              ((skipSyscall_quiet hSkip).trans (.traceJson _ _ _))
        · exact pass _ h

theorem onSyscallEntry_ok {b : Bool} (h : onSyscallEntry k p s = .ok b t) : Entered k p s b t := by
  simp only [onSyscallEntry, bind_ok_iff, ptraceResult_ok] at h
  obtain ⟨regs, _, ⟨hRegs, rfl⟩, h⟩ := h
  split at h
  · obtain ⟨_, _, hRandom, ⟨⟩⟩ := bind_ok_iff.mp h
    exact .quiet (interceptGetrandom_quiet hRandom)
  · split at h
    · obtain ⟨_, _, hClock, ⟨⟩⟩ := bind_ok_iff.mp h
      exact .quiet (interceptClockGettime_quiet hClock)
    · split at h
      · obtain ⟨_, _, hTime, ⟨⟩⟩ := bind_ok_iff.mp h
        exact .quiet (interceptGettimeofday_quiet hTime)
      · split at h
        · exact interceptFutex_ok hRegs h
        · split at h
          · obtain ⟨_, _, ⟨⟩, ⟨⟩⟩ := bind_ok_iff.mp h
            exact .quiet { Quiet.refl _ with }
          · split at h
            · simp only [stashClone, bind_ok_iff, modify_apply] at h
              obtain ⟨_, _, ⟨⟩, _, _, ⟨⟩, ⟨⟩⟩ := h
              exact .quiet { Quiet.refl _ with }
            · obtain ⟨_, _, ⟨⟩, ⟨⟩⟩ := bind_ok_iff.mp h
              exact .quiet (.traceJson _ _ _)

/-- How the handling of a syscall stop of `p` succeeds. -/
inductive SyscallHandled (k : Answers) (p : Pid) (s : Supervisor) : Supervisor → Prop
  | concurrent {v : Supervisor} (hScheduled : s.isScheduled p = false) (hEntered : Quiet s v)
      (hOk : k.syscall p = .ok ()) : SyscallHandled k p s (v.resumed p)
  | wait {v : Supervisor} (hScheduled : s.isScheduled p = true) (hEntered : Entered k p s true v) :
      SyscallHandled k p s { v with current := none }
  | entry {v : Supervisor} (hScheduled : s.isScheduled p = true) (hCurrent : v.current = some p)
      (hEntered : Entered k p s false v) (hOk : k.syscall p = .ok ()) :
      SyscallHandled k p s (v.resumed p)
  | stay {v : Supervisor} (hScheduled : s.isScheduled p = true) (hCurrent : v.current ≠ some p)
      (hEntered : Entered k p s false v) : SyscallHandled k p s v
  | yield {v t : Supervisor} (hScheduled : s.isScheduled p = true) (hCurrent : v.current = some p)
      (hLeft : Quiet s v) (hPicks : Picks k (({ v with current := none } : Supervisor).enqueue p) t) :
      SyscallHandled k p s t
  | pick {v t : Supervisor} (hScheduled : s.isScheduled p = true) (hCurrent : v.current ≠ some p)
      (hLeft : Quiet s v) (hPicks : Picks k v t) : SyscallHandled k p s t

theorem Entered.concurrent {b : Bool} (h : Entered k p s b t) (hScheduled : s.isScheduled p = false) :
    b = false ∧ Quiet s t := by
  cases h with
  | quiet hQuiet => exact ⟨rfl, hQuiet⟩
  | wake _ _ hYes _ => rw [hScheduled] at hYes; cases hYes
  | wait _ hYes _ => rw [hScheduled] at hYes; cases hYes

theorem dispatchSyscall_ok (h : dispatchSyscall k p s = .ok u t) : SyscallHandled k p s t := by
  simp only [dispatchSyscall, bind_ok_iff, ptraceResult_ok, get_apply] at h
  obtain ⟨op, _, ⟨hOp, rfl⟩, _, _, ⟨⟩, h⟩ := h
  have resume {v : Supervisor} (hYes : s.isScheduled p = true) (hEntered : Entered k p s false v)
      (h : resumeCurrent k p v = .ok u t) : SyscallHandled k p s t := by
    rcases resumeCurrent_ok h with ⟨hCurrent, hOk, rfl⟩ | ⟨hCurrent, rfl⟩
    · exact .entry hYes hCurrent hEntered hOk
    · exact .stay hYes hCurrent hEntered
  split at h
  · rename_i hNot
    have hScheduled : s.isScheduled p = false := by simpa using hNot
    have goOn {v : Supervisor} (hEntered : Quiet s v) (h : resumeThread k p v = .ok u t) :
        SyscallHandled k p s t := by
      obtain ⟨hOk, rfl⟩ := resumeThread_ok.mp h
      exact .concurrent hScheduled hEntered hOk
    cases op with
    | entry =>
      simp only [bind_ok_iff, discard_ok_iff] at h
      obtain ⟨_, v, ⟨b, hEntry⟩, h⟩ := h
      exact goOn ((onSyscallEntry_ok hEntry).concurrent hScheduled).2 h
    | exit =>
      simp only [bind_ok_iff] at h
      obtain ⟨_, v, hExit, h⟩ := h
      exact goOn (onSyscallExit_quiet hExit) h
    | none => exact goOn (.refl s) h
    | seccomp => exact goOn (.refl s) h
  · rename_i hYes
    simp only [not_not] at hYes
    cases op with
    | entry =>
      simp only [bind_ok_iff] at h
      obtain ⟨b, v, hEntry, h⟩ := h
      have hEntered := onSyscallEntry_ok hEntry
      cases b with
      | true =>
        simp only [if_true, modify_apply] at h
        cases h
        exact .wait hYes hEntered
      | false => exact resume hYes hEntered h
    | exit =>
      simp only [bind_ok_iff] at h
      obtain ⟨_, v, hExit, h⟩ := h
      have hLeft := onSyscallExit_quiet hExit
      rcases yieldCurrent_ok h with ⟨hCurrent, hPicks⟩ | ⟨hCurrent, hPicks⟩
      · exact .yield hYes hCurrent hLeft hPicks
      · exact .pick hYes hCurrent hLeft hPicks
    | none => exact resume hYes (.quiet (.refl s)) h
    | seccomp => exact resume hYes (.quiet (.refl s)) h

/-- How `register_thread(p, info)` succeeds: the pid was registered before, its attach stop has been
seen and it is released, or that stop is still to come. -/
inductive Registered (k : Answers) (p : Pid) (info : CloneInfo) (s : Supervisor) :
    Supervisor → Prop
  | again (hRegistered : s.registered p = true) : Registered k p info s s
  | released {v t : Supervisor} (hFresh : s.registered p = false) (hStopped : p ∈ s.stoppedPending)
      (hRelease : release k p { s with
        vtidNext := s.vtidNext + 1
        threads := s.threads.insert p ⟨s.vtidNext, info.childTid, info.flags,
          info.flags &&& CLONE_THREAD ≠ 0⟩
        stoppedPending := s.stoppedPending.erase p } = .ok () v)
      (hQuiet : Quiet v t) : Registered k p info s t
  | expected {t : Supervisor} (hFresh : s.registered p = false) (hStopped : p ∉ s.stoppedPending)
      (hQuiet : Quiet { s with
        threads := s.threads.insert p ⟨s.vtidNext, info.childTid, info.flags,
          info.flags &&& CLONE_THREAD ≠ 0⟩
        pendingStart := insert p s.pendingStart } t) : Registered k p info s t

theorem registerThread_ok {info : CloneInfo} (h : registerThread k p info s = .ok u t) :
    Registered k p info s t := by
  simp only [registerThread, bind_ok_iff, get_apply] at h
  obtain ⟨_, _, ⟨⟩, h⟩ := h
  split at h
  · rename_i hRegistered
    cases h
    exact .again hRegistered
  · rename_i hNot
    have hFresh : s.registered p = false := by simpa using hNot
    simp only [bind_ok_iff, set_apply] at h
    obtain ⟨_, _, ⟨⟩, h⟩ := h
    split at h
    · rename_i hStopped
      simp only [bind_ok_iff, modify_apply] at h
      obtain ⟨_, _, ⟨⟩, _, v, hRelease, ⟨⟩⟩ := h
      exact .released hFresh hStopped hRelease (.traceJson _ _ _)
    · rename_i hStopped
      simp only [bind_ok_iff, modify_apply] at h
      obtain ⟨_, _, ⟨⟩, ⟨⟩⟩ := h
      exact .expected hFresh hStopped { Quiet.refl _ with }

theorem dispatchClone_ok {flow : Flow} (h : dispatchClone k p s = .ok flow t) :
    ∃ child v, k.getevent p = .ok child ∧
      Registered k child ((s.clonePending.get p).getD {})
        { s with clonePending := s.clonePending.erase p } v ∧
      ((child ∈ v.pendingStart ∧ flow = .await ⟨child, p⟩ ∧ t = v) ∨
        (child ∉ v.pendingStart ∧ flow = .next ∧ resumeTask k p v = .ok () t)) := by
  simp only [dispatchClone, bind_ok_iff, ptraceResult_ok, get_apply, set_apply] at h
  obtain ⟨child, _, ⟨hEvent, rfl⟩, _, _, ⟨⟩, _, _, ⟨⟩, _, v, hRegister, _, _, ⟨⟩, h⟩ := h
  refine ⟨child, v, hEvent, registerThread_ok hRegister, ?_⟩
  split at h
  · rename_i hExpected
    cases h
    exact .inl ⟨hExpected, rfl, rfl⟩
  · rename_i hExpected
    obtain ⟨_, _, hResume, ⟨⟩⟩ := bind_ok_iff.mp h
    exact .inr ⟨hExpected, rfl, hResume⟩

/-- How the handling of a stop that is not a ptrace event succeeds. -/
inductive StopHandled (k : Answers) (p : Pid) (sig : Signal) (s : Supervisor) : Supervisor → Prop
  | current (hCurrent : s.current = some p) (hSig : sig = .SIGSTOP) (hOk : k.syscall p = .ok ()) :
      StopHandled k p sig s (s.resumed p)
  | attached {t : Supervisor} (hCurrent : s.current ≠ some p) (hSig : sig = .SIGSTOP)
      (hStart : p ∈ s.pendingStart)
      (hRelease : release k p { s with pendingStart := s.pendingStart.erase p } = .ok () t) :
      StopHandled k p sig s t
  | early (hCurrent : s.current ≠ some p) (hSig : sig = .SIGSTOP) (hStart : p ∉ s.pendingStart)
      (hRegistered : s.registered p = false) :
      StopHandled k p sig s { s with stoppedPending := insert p s.stoppedPending }
  | again (hCurrent : s.current ≠ some p) (hSig : sig = .SIGSTOP) (hStart : p ∉ s.pendingStart)
      (hRegistered : s.registered p = true) : StopHandled k p sig s s
  | signal (hSig : sig ≠ .SIGSTOP) (hOk : k.syscall p = .ok ())
      (hWho : s.current = some p ∨ (s.isScheduled p = false ∧ s.registered p = true)) :
      StopHandled k p sig s (s.delivered p sig)
  | noted {t : Supervisor} (hSig : sig ≠ .SIGSTOP) (hCurrent : s.current ≠ some p)
      (hWho : s.isScheduled p = true ∨ s.registered p = false) (hQuiet : Quiet s t) :
      StopHandled k p sig s t

theorem dispatchStopped_ok {sig : Signal} (h : dispatchStopped k p sig s = .ok u t) :
    StopHandled k p sig s t := by
  simp only [dispatchStopped, bind_ok_iff, get_apply] at h
  obtain ⟨_, _, ⟨⟩, h⟩ := h
  split at h
  · rename_i hSig
    split at h
    · rename_i hCurrent
      obtain ⟨hOk, rfl⟩ := resumeThread_ok.mp h
      exact .current hCurrent hSig hOk
    · rename_i hCurrent
      split at h
      · rename_i hStart
        simp only [bind_ok_iff, set_apply] at h
        obtain ⟨_, _, ⟨⟩, hRelease⟩ := h
        exact .attached hCurrent hSig hStart hRelease
      · rename_i hStart
        split at h
        · rename_i hNot
          cases h
          exact .early hCurrent hSig hStart (by simpa using hNot)
        · rename_i hRegistered
          cases h
          exact .again hCurrent hSig hStart (by simpa using hRegistered)
  · rename_i hSig
    split at h
    · rename_i hCurrent
      obtain ⟨hOk, rfl⟩ := ptraceSyscall_ok.mp h
      exact .signal hSig hOk (.inl hCurrent)
    · rename_i hCurrent
      split at h
      · rename_i hScheduled
        cases h
        exact .noted hSig hCurrent (.inl hScheduled) { Quiet.refl s with }
      · rename_i hScheduled
        split at h
        · rename_i hRegistered
          obtain ⟨hOk, rfl⟩ := ptraceSyscall_ok.mp h
          exact .signal hSig hOk (.inr ⟨by simpa using hScheduled, hRegistered⟩)
        · rename_i hRegistered
          cases h
          exact .noted hSig hCurrent (.inr (by simpa using hRegistered)) (.refl s)

/-- `on_thread_exit`: the task leaves the table, up to one thread parked on its `child_tid` word is
moved, and the task is forgotten. -/
theorem onThreadExit_spec (h : s.Queued) (p : Pid) (record : Bool) :
    ∃ addr m v, Unparked addr m { s with threads := s.threads.erase p } v ∧
      Quiet (v.forget p) (s.onThreadExit p record) := by
  have hErased : Queued { s with threads := s.threads.erase p } := h.congr rfl rfl
  simp only [Supervisor.onThreadExit]
  cases hLookup : s.threads.get p with
  | none =>
    refine ⟨0, 0, _, .none (hErased.nonempty 0), { Quiet.refl _ with threads := ?_ }⟩
    exact (Map.erase_eq_self hLookup).symm
  | some thread =>
    have hForget {a b : Supervisor} (hQuiet : Quiet a b) : Quiet (a.forget p) (b.forget p) := by
      refine ⟨hQuiet.threads, ?_, ?_, ?_, ?_, ?_, hQuiet.current, hQuiet.resumes⟩
      · simp only [forget, hQuiet.runnable]
      · simp only [forget, hQuiet.pendingStart]
      · simp only [forget, hQuiet.stoppedPending]
      · simp only [forget, hQuiet.blocked]
      · simp only [forget, hQuiet.waiting]
    obtain ⟨m, hWake⟩ := clearTidWake_unparked hErased thread
    refine ⟨thread.childTid, m, _, hWake, hForget ?_⟩
    cases record with
    | true => exact { Quiet.refl _ with }
    | false => exact { Quiet.refl _ with }

theorem onThreadExit_frame (s : Supervisor) (p : Pid) (record : Bool) :
    s.onThreadExit p record = { s with
      seq := (s.onThreadExit p record).seq
      trace := (s.onThreadExit p record).trace
      pending := (s.onThreadExit p record).pending
      threads := s.threads.erase p
      runnable := (s.onThreadExit p record).runnable
      blocked := (s.onThreadExit p record).blocked
      waiting := (s.onThreadExit p record).waiting
      sigPending := s.sigPending.erase p
      pendingStart := s.pendingStart.erase p
      stoppedPending := s.stoppedPending.erase p } := by
  simp only [Supervisor.onThreadExit]
  cases hLookup : s.threads.get p with
  | none => simp only [forget, Map.erase_eq_self hLookup]
  | some thread =>
    simp only []
    rw [clearTidWake_frame]
    cases record with
    | true => rfl
    | false => rfl

theorem dispatchExit_ok (h : dispatchExit k p s = .ok u t) :
    (s.current = some p ∧ s.groupExiting = false ∧
        Picks k { s.onThreadExit p true with current := none } t) ∨
      ((s.current ≠ some p ∨ s.groupExiting = true) ∧
        t = s.onThreadExit p (s.current = some p)) := by
  simp only [dispatchExit, bind_ok_iff, get_apply, set_apply] at h
  obtain ⟨_, _, ⟨⟩, _, _, ⟨⟩, _, _, ⟨⟩, h⟩ := h
  split at h
  · rename_i hLast
    obtain ⟨hCurrent, hAlive⟩ := hLast
    simp only [bind_ok_iff, modify_apply] at h
    obtain ⟨_, _, ⟨⟩, h⟩ := h
    simp only [decide_eq_true_eq] at hCurrent
    rw [onThreadExit_frame] at hAlive
    refine .inl ⟨hCurrent, by simpa using hAlive, ?_⟩
    simpa [hCurrent] using scheduleNext_ok h
  · rename_i hNot
    cases h
    refine .inr ⟨?_, rfl⟩
    rw [onThreadExit_frame] at hNot
    by_cases hCurrent : s.current = some p
    · exact .inr (by simpa [hCurrent] using hNot)
    · exact .inl hCurrent

end Dtrun
