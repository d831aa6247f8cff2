import Dtrun.Supervisor.Tracees

/-! # The delivery of signals

A task that is about to receive a signal stops first, and gets the signal with the resume that ends
the stop. Between two statuses nothing is pending as long as signals come to the current thread and
to concurrent processes; then every resume passes what its task has stopped for.
-/
namespace Dtrun
set_option autoImplicit false
open FiniteMap StateExcept Transition Supervisor

variable {k : Answers} {s t : Supervisor} {p : Pid} {status : WaitStatus} {awaits : List Await}

/-- What the handling of a status does with signals: those it keeps for later, and the resumes. -/
def Supervisor.handed (s : Supervisor) : PidMap Signal × List Effect :=
  (s.sigPending, s.effects.filter Effect.isResume)

/-! ## The system calls -/

theorem ptraceResult_handed {α : Type} (r : Except Errno α) :
    Keeps Supervisor.handed (ptraceResult r) := by
  cases r with
  | ok a => exact .pure a
  | error e => exact .throw _

theorem ptraceSetregs_handed (regs : Regs) : Keeps Supervisor.handed (ptraceSetregs k p regs) :=
  .bind (ptraceResult_handed _) fun _ => .modify fun s => by simp [handed, Effect.isResume]

theorem writeProcMem_handed (addr : U64) (data : List Byte) :
    Keeps Supervisor.handed (writeProcMem k p addr data) := by
  rw [writeProcMem]
  split
  · exact .modify fun s => by simp [handed, Effect.isResume]
  · exact .throw _

theorem skipSyscall_handed (syscall : Int) (retval : U64) :
    Keeps Supervisor.handed (skipSyscall k p syscall retval) :=
  .bind (ptraceResult_handed _) fun _ => .bind (ptraceSetregs_handed _) fun _ =>
    .modify fun _ => rfl

theorem interceptGetrandom_handed (regs : Regs) :
    Keeps Supervisor.handed (interceptGetrandom k p regs) := by
  have skip (n : U64) (detail : List (String × Value)) : Keeps Supervisor.handed (do
      skipSyscall k p SYS_getrandom n
      modify (·.traceJson "getrandom" detail) : SupM Unit) :=
    .bind (skipSyscall_handed _ _) fun _ => .modify fun _ => rfl
  refine fun s => .get_bind (.set_bind rfl ?_)
  split
  · exact .bind (writeProcMem_handed _ _) fun _ => skip _ _
  · exact skip _ _

theorem virtualClock_handed (s : Supervisor) (clk : U32) :
    (s.virtualClock clk).2.handed = s.handed := by
  simp only [virtualClock]
  split
  · rfl
  · split
    · rfl
    · rfl

theorem interceptClockGettime_handed (regs : Regs) :
    Keeps Supervisor.handed (interceptClockGettime k p regs) :=
  fun s => .get_bind (.set_bind (virtualClock_handed s _)
    (.bind (writeProcMem_handed _ _) fun _ => .bind (skipSyscall_handed _ _) fun _ =>
      .modify fun _ => rfl))

theorem interceptGettimeofday_handed (regs : Regs) :
    Keeps Supervisor.handed (interceptGettimeofday k p regs) :=
  fun s => .get_bind (.set_bind (virtualClock_handed s CLOCK_REALTIME)
    (.bind (writeProcMem_handed _ _) fun _ => .bind (skipSyscall_handed _ _) fun _ =>
      .modify fun _ => rfl))

theorem wake_handed (s : Supervisor) (addr val : U64) : (s.wake addr val).2.handed = s.handed := by
  rw [wake_frame]
  rfl

theorem interceptFutex_handed (regs : Regs) :
    Keeps Supervisor.handed (interceptFutex k p regs) := by
  have note (op kind : String) (b : Bool) : Keeps Supervisor.handed
      (do modify (·.traceFutex p op kind); pure b : SupM Bool) :=
    .bind (.modify fun _ => rfl) fun _ => .pure _
  have skip (retval : U64) (op kind : String) : Keeps Supervisor.handed (do
      skipSyscall k p SYS_futex retval
      modify (·.traceFutex p op kind)
      pure false : SupM Bool) :=
    .bind (skipSyscall_handed _ _) fun _ => note op kind false
  refine fun s => .get_bind ?_
  split
  · exact note _ _ _ s
  · split
    · split
      · refine Keeps.bind (skipSyscall_handed _ _) (fun _ => .bind (.modify ?_) fun _ => .pure _) s
        exact fun _ => rfl
      · exact note _ _ _ s
    · split
      · exact .set_bind (wake_handed s _ _) (skip _ _ _)
      · split
        · split
          · exact note _ _ _ s
          · exact .set_bind ((wake_handed _ _ _).trans (wake_handed s _ _)) (skip _ _ _)
        · exact note _ _ _ s

theorem onSyscallEntry_handed : Keeps Supervisor.handed (onSyscallEntry k p) := by
  have note {g : Supervisor → Supervisor} (hg : ∀ s, (g s).handed = s.handed) :
      Keeps Supervisor.handed (do modify g; pure false : SupM Bool) :=
    .bind (.modify hg) fun _ => .pure _
  refine .bind (ptraceResult_handed _) fun regs => ?_
  dsimp only
  split
  · exact .bind (interceptGetrandom_handed regs) fun _ => .pure _
  · split
    · exact .bind (interceptClockGettime_handed regs) fun _ => .pure _
    · split
      · exact .bind (interceptGettimeofday_handed regs) fun _ => .pure _
      · split
        · exact interceptFutex_handed regs
        · split
          · exact note fun _ => rfl
          · split
            · exact .bind (.modify fun _ => rfl) fun _ => note fun _ => rfl
            · exact note fun _ => rfl

theorem onSyscallExit_handed : Keeps Supervisor.handed (onSyscallExit k p) := by
  refine fun s => .get_bind (.set_bind rfl ?_)
  cases s.pending.get p with
  | none => exact .pure _
  | some inject =>
    exact .bind (ptraceResult_handed _) fun _ =>
      .bind (ptraceSetregs_handed _) fun _ => .modify fun _ => rfl

/-! ## Passes without signals -/

/-- No signal is kept for later, and none has been passed in this pass. -/
structure Supervisor.Unsigned (s : Supervisor) : Prop where
  pending : ∀ p, s.sigPending.get p = none
  plain : ∀ p sig, Effect.resume p sig ∈ s.effects → sig = none

namespace Supervisor.Unsigned

theorem congr (h : s.Unsigned) (hHanded : t.handed = s.handed) : t.Unsigned := by
  obtain ⟨hPending, hResumes⟩ := Prod.mk.inj hHanded
  refine ⟨fun p => ?_, fun p sig hMem => h.plain p sig ?_⟩
  · rw [hPending]
    exact h.pending p
  · have hFiltered : Effect.resume p sig ∈ t.effects.filter Effect.isResume :=
      List.mem_filter.mpr ⟨hMem, rfl⟩
    rw [hResumes] at hFiltered
    exact (List.mem_filter.mp hFiltered).1

theorem keeps {α : Type} {x : SupM α} (h : Keeps Supervisor.handed x) : Preserves Unsigned x :=
  .of_keeps h fun _ _ hHanded hs => hs.congr hHanded

theorem resumed (h : s.Unsigned) (p : Pid) : (s.resumed p).Unsigned := by
  constructor
  · intro q
    simp only [Supervisor.resumed, Map.get_erase]
    split
    · rfl
    · exact h.pending q
  · intro q sig hMem
    rcases List.mem_append.mp hMem with hOld | hNew
    · exact h.plain q sig hOld
    · cases List.mem_singleton.mp hNew
      exact h.pending p

theorem resumeThread : Preserves Unsigned (resumeThread k p) := by
  intro s _ t hRun h
  obtain ⟨_, rfl⟩ := resumeThread_ok.mp hRun
  exact h.resumed p

theorem resumeCurrent : Preserves Unsigned (resumeCurrent k p) := by
  refine Preserves.bind .get fun s => ?_
  split
  · exact resumeThread
  · exact .pure _

theorem resumeTask : Preserves Unsigned (resumeTask k p) := by
  refine Preserves.bind .get fun s => ?_
  split
  · exact resumeCurrent
  · exact resumeThread

theorem release : Preserves Unsigned (release k p) := by
  refine Preserves.bind .get fun s => ?_
  split
  · exact .modify fun _ h => h.congr rfl
  · exact resumeThread

theorem picks (hPicks : Picks k s t) (h : s.Unsigned) : t.Unsigned := by
  cases hPicks with
  | idle hSkips hExpected => exact h.congr rfl
  | run hQueue hSkips hLookup hBlocked hOk =>
    refine resumed (h.congr ?_) _
    rw [scheduled_frame]
    rfl

theorem scheduleNext : Preserves Unsigned (scheduleNext k) :=
  fun _ _ _ hRun h => h.picks (scheduleNext_ok hRun)

theorem runTail : Preserves Unsigned (runTail k) := by
  refine Preserves.bind .get fun s => ?_
  split
  · exact scheduleNext
  · exact .pure _

theorem yieldCurrent : Preserves Unsigned (yieldCurrent k p) := by
  refine Preserves.bind (.modify fun s h => ?_) fun _ => scheduleNext
  split
  · exact h.congr rfl
  · exact h

theorem registerThread (info : CloneInfo) : Preserves Unsigned (registerThread k p info) := by
  intro s _ t hRun h
  rw [Dtrun.registerThread, bind_of_ok (get_apply s)] at hRun
  split at hRun
  · cases hRun
    exact h
  · obtain ⟨_, v, ⟨⟩, hRun⟩ := bind_ok_iff.mp hRun
    have created (detail : List (String × Value)) : Preserves Unsigned
        (modify (·.traceJson "thread_create" detail) : SupM Unit) := .modify fun _ h => h.congr rfl
    split at hRun
    · exact Preserves.bind (.modify fun _ h => h.congr rfl)
        (fun _ => .bind release fun _ => created _) _ _ t hRun (h.congr rfl)
    · exact Preserves.bind (.modify fun _ h => h.congr rfl) (fun _ => created _) _ _ t hRun
        (h.congr rfl)

theorem dispatchSyscall : Preserves Unsigned (dispatchSyscall k p) := by
  refine .bind (keeps (ptraceResult_handed _)) fun op => .bind .get fun s => ?_
  split
  · cases op with
    | entry =>
      refine .bind ?_ fun _ => resumeThread
      exact keeps onSyscallEntry_handed.discard
    | exit => exact .bind (keeps onSyscallExit_handed) fun _ => resumeThread
    | none => exact resumeThread
    | seccomp => exact resumeThread
  · cases op with
    | entry =>
      refine .bind (keeps onSyscallEntry_handed) fun b => ?_
      cases b with
      | true => exact .modify fun _ h => h.congr rfl
      | false => exact resumeCurrent
    | exit => exact .bind (keeps onSyscallExit_handed) fun _ => yieldCurrent
    | none => exact resumeCurrent
    | seccomp => exact resumeCurrent

theorem dispatchClone : Preserves Unsigned (dispatchClone k p) := by
  refine .bind (keeps (ptraceResult_handed _)) fun child => ?_
  intro s flow t hRun h
  rw [bind_of_ok (get_apply s)] at hRun
  obtain ⟨_, v, ⟨⟩, hRun⟩ := bind_ok_iff.mp hRun
  refine Preserves.bind (registerThread _) (fun _ => .bind .get fun v => ?_) _ flow t hRun
    (h.congr rfl)
  split
  · exact .pure _
  · exact .bind resumeTask fun _ => .pure _

theorem dispatchStopped : Preserves Unsigned (dispatchStopped k p .SIGSTOP) := by
  intro s _ t hRun h
  cases dispatchStopped_ok hRun with
  | current hCurrent hSig hOk => exact h.resumed p
  | attached hCurrent hSig hStart hRelease => exact release _ _ t hRelease (h.congr rfl)
  | early hCurrent hSig hStart hRegistered => exact h.congr rfl
  | again hCurrent hSig hStart hRegistered => exact h
  | signal hSig hOk hWho => exact absurd rfl hSig
  | noted hSig hCurrent hWho hQuiet => exact absurd rfl hSig

theorem onThreadExit (h : s.Unsigned) (p : Pid) (record : Bool) :
    (s.onThreadExit p record).Unsigned := by
  rw [onThreadExit_frame]
  refine ⟨fun q => ?_, h.plain⟩
  simp only [Map.get_erase]
  split
  · rfl
  · exact h.pending q

theorem dispatchExit : Preserves Unsigned (dispatchExit k p) := by
  intro s _ t hRun h
  rcases dispatchExit_ok hRun with ⟨_, _, hPicks⟩ | ⟨_, rfl⟩
  · exact picks hPicks ((h.onThreadExit p true).congr rfl)
  · exact h.onThreadExit p _

theorem dispatch (hStatus : ∀ p sig, status = .stopped p sig → sig = .SIGSTOP) :
    Preserves Unsigned (dispatch k status) := by
  have next {x : SupM Unit} (hx : Preserves Unsigned x) :
      Preserves Unsigned (do x; pure Flow.next : SupM Flow) := .bind hx fun _ => .pure _
  have death (p : Pid) (event : String) (note code : Int) : Preserves Unsigned (do
      if p = (← get).pid then
        modify (·.traceLifecycle event note)
        pure (Flow.exit code)
      else
        Dtrun.dispatchExit k p
        pure Flow.next : SupM Flow) := by
    refine .bind .get fun s => ?_
    split
    · exact .bind (.modify fun _ h => h.congr rfl) fun _ => .pure _
    · exact next dispatchExit
  cases status with
  | ptraceSyscall p => exact next dispatchSyscall
  | ptraceEvent p sig event =>
    cases event with
    | clone => exact dispatchClone
    | fork => exact dispatchClone
    | vfork => exact dispatchClone
    | exit => exact next resumeThread
    | exec => exact next resumeTask
    | vforkDone => exact next resumeTask
    | seccomp => exact next resumeTask
    | stop => exact next resumeTask
  | stopped p sig =>
    cases hStatus p sig rfl
    exact next dispatchStopped
  | exited p code => exact death p _ _ _
  | signaled p sig core => exact death p _ _ _
  | continued p => exact .pure _
  | stillAlive => exact .pure _

theorem pass (hStatus : ∀ p sig, status = .stopped p sig → sig = .SIGSTOP) :
    Preserves Unsigned (pass k awaits status) := by
  have tail (turn : Turn) : Preserves Unsigned (do Dtrun.runTail k; pure turn : SupM Turn) :=
    .bind runTail fun _ => .pure _
  cases awaits with
  | nil =>
    refine .bind (dispatch hStatus) fun flow => ?_
    cases flow with
    | next => exact tail _
    | exit code => exact .pure _
    | await w => exact .pure _
  | cons w outer =>
    simp only [Dtrun.pass, awaitPass]
    split
    · refine .bind (.modify fun _ h => h.congr rfl) fun _ => .bind release fun _ =>
        .bind resumeTask fun _ => ?_
      split
      · exact tail _
      · exact .pure _
    · refine .bind (dispatch hStatus) fun flow => ?_
      cases flow with
      | next => exact .pure _
      | exit code => exact .pure _
      | await inner => exact .pure _

theorem signal {sig : Signal} {awaits' : List Await} (h : s.Unsigned) (hEffects : s.effects = [])
    (hPassed : Passed k s awaits (.stopped p sig) (.wait awaits') t) (hSig : sig ≠ .SIGSTOP)
    (hWho : s.current = some p ∨ (s.registered p = true ∧ s.isScheduled p = false)) :
    (∀ q, t.sigPending.get q = none) ∧ ∃ rest, t.effects = .resume p (some sig) :: rest ∧
      ∀ q sig', Effect.resume q sig' ∈ rest → sig' = none := by
  have delivered {v : Supervisor} (hStop : StopHandled k p sig s v) : v = s.delivered p sig := by
    cases hStop with
    | signal _ _ _ => rfl
    | noted _ hCurrent hOther _ =>
      rcases hWho with hYes | ⟨hKnown, hNot⟩
      · exact absurd hYes hCurrent
      · rcases hOther with hScheduled | hUnknown
        · rw [hNot] at hScheduled
          cases hScheduled
        · rw [hKnown] at hUnknown
          cases hUnknown
    | _ => exact absurd ‹sig = .SIGSTOP› hSig
  have hFirst : (s.delivered p sig).effects = [.resume p (some sig)] := by
    rw [Supervisor.delivered, hEffects]
    rfl
  cases hPassed with
  | next hDispatched hTail =>
    cases hDispatched with
    | stopped hStop =>
      rw [delivered hStop] at hTail
      rcases hTail with ⟨_, hPicks⟩ | ⟨_, rfl⟩
      · cases hPicks with
        | idle hSkips hExpected => exact ⟨h.pending, [], hFirst, by simp⟩
        | @run skipped queue tid thread hQueue hSkips hLookup hBlocked hOk =>
          rw [scheduled_frame]
          refine ⟨fun q => ?_, [.resume tid none], ?_, by simp⟩
          · simp only [Supervisor.resumed, Map.get_erase]
            split
            · rfl
            · exact h.pending q
          · have hNone : (s.delivered p sig).sigPending.get tid = none := h.pending tid
            simp only [Supervisor.resumed, hFirst, hNone]
            rfl
      · exact ⟨h.pending, [], hFirst, by simp⟩
    | died hDeath => cases hDeath
    | idle hIdle => simp at hIdle
  | again hOther hDispatched =>
    cases hDispatched with
    | stopped hStop =>
      rw [delivered hStop]
      exact ⟨h.pending, [], hFirst, by simp⟩
    | died hDeath => cases hDeath
    | idle hIdle => simp at hIdle
  | await hDispatched => cases hDispatched
  | attached _ _ _ => exact absurd rfl hSig

end Supervisor.Unsigned

/-! ## What a run says about signals -/

inductive Notice where
  /-- `p` has stopped to receive a signal. -/
  | stop (p : Pid) (sig : Signal)
  /-- `p` has been let go with what was passed to it. -/
  | release (p : Pid) (sig : Option Signal)
  | death (p : Pid)
  deriving DecidableEq

namespace Notice

def owe (owed : Pid → Option Signal) : Notice → Pid → Option Signal
  | .stop p sig, q => if q = p then some sig else owed q
  | .release p _, q | .death p, q => if q = p then none else owed q

def nobody : Pid → Option Signal := fun _ => none

/-- What is still to be received after some notices. -/
def owed (notices : List Notice) : Pid → Option Signal := notices.foldl owe nobody

/-- Every release passes what its task has stopped for. -/
def Exact (notices : List Notice) : Prop :=
  ∀ before p sig after, notices = before ++ .release p sig :: after → sig = owed before p

variable {notices rest : List Notice} {n : Notice} {sig : Signal}

theorem owed_snoc (notices : List Notice) (n : Notice) :
    owed (notices ++ [n]) = owe (owed notices) n := by
  rw [owed, List.foldl_append]
  rfl

theorem Exact.snoc (h : Exact notices)
    (hLast : ∀ p sig, n = .release p sig → sig = owed notices p) : Exact (notices ++ [n]) := by
  intro before p sig after hEq
  rcases List.eq_nil_or_concat after with rfl | ⟨after, m, rfl⟩
  · obtain ⟨rfl, hNotice⟩ := List.append_inj' hEq rfl
    exact hLast p sig (List.singleton_inj.mp hNotice)
  · rw [List.concat_eq_append, ← List.cons_append, ← List.append_assoc] at hEq
    exact h before p sig after (List.append_inj' hEq rfl).1

/-- Nobody is owed anything, and every release so far was right. -/
structure Even (notices : List Notice) : Prop where
  exact : Exact notices
  even : ∀ p, owed notices p = none

namespace Even

theorem nil : Even [] where
  exact := by
    intro before p sig after hEq
    simp at hEq
  even _ := rfl

theorem death (h : Even notices) (p : Pid) : Even (notices ++ [.death p]) where
  exact := h.exact.snoc fun q sig hEq => by cases hEq
  even q := by
    rw [owed_snoc, owe]
    split
    · rfl
    · exact h.even q

theorem releases (h : Even notices) (hRest : ∀ n ∈ rest, ∃ p, n = .release p none) :
    Even (notices ++ rest) := by
  induction rest generalizing notices with
  | nil => rwa [List.append_nil]
  | cons n rest ih =>
    obtain ⟨p, rfl⟩ := hRest n List.mem_cons_self
    have hFirst : Even (notices ++ [.release p none]) := by
      constructor
      · apply h.exact.snoc
        rintro q sig ⟨⟩
        exact (h.even p).symm
      · intro q
        rw [owed_snoc, owe]
        split
        · rfl
        · exact h.even q
    rw [← List.singleton_append, ← List.append_assoc]
    exact ih hFirst fun m hm => hRest m (List.mem_cons_of_mem _ hm)

theorem signal (h : Even notices) (p : Pid) (sig : Signal) :
    Even (notices ++ [.stop p sig] ++ [.release p (some sig)]) where
  exact := by
    apply Exact.snoc
    · exact h.exact.snoc fun q sig' hEq => by cases hEq
    · rintro q sig' ⟨⟩
      rw [owed_snoc, owe, if_pos rfl]
  even q := by
    rw [owed_snoc, owed_snoc, owe, owe]
    split
    · rfl
    · exact h.even q

end Even

end Notice

/-- The attach stop of a new task is no signal of its own. -/
def Tracees.notices (t : Tracees) (r : Report) : List Notice :=
  match r.status with
  | .ok (.stopped p sig) =>
    if sig = .SIGSTOP ∧ t.phase p = some .newborn then [] else [.stop p sig]
  | .ok status => match status.death with
    | some p => [.death p]
    | none => []
  | .error _ => []

def Effect.notice : Effect → Option Notice
  | .resume p sig => some (.release p sig)
  | _ => none

/-- A kernel in which any signal may come, `SIGSTOP` included. -/
def Tracees.mayReport (t : Tracees) (r : Report) : Bool :=
  t.allows r || match r.status with
    | .ok (.stopped p .SIGSTOP) => t.phase p = some .released
    | _ => false

namespace World

def signalled (w : World) : Label → Option World
  | .report r => match w.machine.result with
    | some _ => none
    | none =>
      if w.tracees.mayReport r then
        some {
          machine := w.machine.step r
          tracees := (w.tracees.observe r).after (w.machine.step r).sv }
      else none
  | l => w.step l

def noted (notices : List Notice) (w : World) : Label → List Notice
  | .report r => notices ++ w.tracees.notices r ++
      (w.machine.step r).sv.effects.filterMap Effect.notice
  | _ => notices

/-- The supervisor and its container, with all that happens to signals. -/
def signals (pid : Pid) (seed : U64) : System (World × List Notice) Label :=
  System.observed ⟨(system pid seed).init, signalled⟩ noted []

/-- Every release passes what its task has stopped for, and a task that has stopped for a signal has
been released or is queued to run. A task that waits for its attach stop reports none as long as it
is in another. -/
structure Delivered (x : World × List Notice) : Prop where
  exact : Notice.Exact x.2
  served : ∀ p, Notice.owed x.2 p ≠ none → p ∈ x.1.machine.sv.runnable

/-- Besides the attach stops, only the current thread and concurrent processes stop for signals, and
none for a `SIGSTOP`. -/
def Ordinary (x : World × List Notice) (l : Label) : Prop :=
  match l with
  | .report r => match r.status with
    | .ok (.stopped p sig) =>
      if sig = .SIGSTOP then x.1.tracees.phase p = some .newborn
      else x.1.machine.sv.current = some p ∨
        (x.1.machine.sv.registered p = true ∧ x.1.machine.sv.isScheduled p = false)
    | _ => True
  | _ => True

theorem plain_releases {effects : List Effect}
    (h : ∀ p sig, Effect.resume p sig ∈ effects → sig = none) :
    ∀ n ∈ effects.filterMap Effect.notice, ∃ p, n = .release p none := by
  intro n hn
  obtain ⟨e, he, hNotice⟩ := List.mem_filterMap.mp hn
  cases e with
  | resume p sig =>
    cases h p sig he
    cases hNotice
    exact ⟨p, rfl⟩
  | setregs p regs => cases hNotice
  | write p addr data => cases hNotice

theorem signalled_eq_some {w w' : World} {r : Report} (h : w.signalled (.report r) = some w') :
    w.machine.result = none ∧ w.tracees.mayReport r = true ∧ w'.machine = w.machine.step r ∧
      w'.tracees = (w.tracees.observe r).after (w.machine.step r).sv := by
  simp only [signalled] at h
  cases hResult : w.machine.result with
  | some result => simp [hResult] at h
  | none =>
    simp only [hResult] at h
    split at h
    · rename_i hMay
      cases h
      exact ⟨rfl, hMay, rfl, rfl⟩
    · cases h

variable {x : World × List Notice} {pid : Pid} {seed : U64}

theorem Tracees.notices_signal {r : Report} {p : Pid} {sig : Signal} {tracees : Tracees}
    (hStatus : r.status = .ok (.stopped p sig)) (hSig : sig ≠ .SIGSTOP) :
    tracees.notices r = [.stop p sig] := by
  simp [Tracees.notices, hStatus, hSig]

theorem Ordinary.notices {r : Report} (hOk : Ordinary x (.report r))
    (hStatus : r.status = .ok status) (hSig : ∀ p sig, status = .stopped p sig → sig = .SIGSTOP)
    (h : Notice.Even x.2) : Notice.Even (x.2 ++ x.1.tracees.notices r) := by
  have quiet (hDeath : status.death = none) (hStop : ∀ p sig, status ≠ .stopped p sig) :
      x.1.tracees.notices r = [] := by
    cases status <;> simp_all [Tracees.notices, WaitStatus.death]
  cases status with
  | stopped p sig =>
    cases hSig p sig rfl
    simp only [Ordinary, hStatus, if_true] at hOk
    simp only [Tracees.notices, hStatus, hOk, and_self, if_true, List.append_nil]
    exact h
  | exited p code =>
    simp only [Tracees.notices, hStatus, WaitStatus.death]
    exact h.death p
  | signaled p sig core =>
    simp only [Tracees.notices, hStatus, WaitStatus.death]
    exact h.death p
  | _ =>
    rw [quiet rfl (by simp), List.append_nil]
    exact h

/-- Between two statuses of such a run nothing is pending and nobody is owed a signal. -/
theorem even_handed (h : (signals pid seed).Reach Ordinary x) (hOpen : x.1.machine.result = none) :
    (∀ p, x.1.machine.sv.sigPending.get p = none) ∧ Notice.Even x.2 := by
  refine System.Reach.invariant (I := fun x => x.1.machine.result = none →
    (∀ p, x.1.machine.sv.sigPending.get p = none) ∧ Notice.Even x.2) ?_ ?_ h hOpen
  · rintro x ⟨⟨k, hStart⟩, hNotes⟩ hOpen
    rw [hStart] at hOpen ⊢
    rw [hNotes]
    obtain ⟨_, hPicks⟩ := Machine.start_wait hOpen
    have hFresh : (Machine.fresh pid seed).Unsigned := ⟨fun _ => rfl, by simp [Machine.fresh]⟩
    exact ⟨(hFresh.picks hPicks).pending, .nil⟩
  · intro x l y _ hEven hOk hStep hOpen
    obtain ⟨hStep, hNotes⟩ := System.observed_step hStep
    rw [hNotes]
    cases l with
    | spawn p c thread vm =>
      have hMachine := spawn_machine hStep
      rw [hMachine] at hOpen ⊢
      exact hEven hOpen
    | exec p =>
      have hMachine := exec_machine hStep
      rw [hMachine] at hOpen ⊢
      exact hEven hOpen
    | report r =>
      obtain ⟨hRunning, _, hMachine, _⟩ := signalled_eq_some hStep
      obtain ⟨hPending, hNoted⟩ := hEven hRunning
      rw [hMachine] at hOpen ⊢
      have hRead : ({ x.1.machine.sv with effects := [] } : Supervisor).Unsigned :=
        ⟨hPending, by simp⟩
      obtain ⟨status, hStatus, hPass⟩ := Machine.step_pass hRunning hOpen
      by_cases hSignal : ∃ p sig, status = .stopped p sig ∧ sig ≠ .SIGSTOP
      · obtain ⟨p, sig, rfl, hSig⟩ := hSignal
        simp only [Ordinary, hStatus, if_neg hSig] at hOk
        obtain ⟨hPending, rest, hEffects, hRest⟩ := hRead.signal rfl (pass_ok hPass) hSig hOk
        refine ⟨hPending, ?_⟩
        have hFirst : (Effect.resume p (some sig) :: rest).filterMap Effect.notice =
            [.release p (some sig)] ++ rest.filterMap Effect.notice := rfl
        rw [noted, Tracees.notices_signal hStatus hSig, hEffects, hFirst, ← List.append_assoc]
        exact (hNoted.signal p sig).releases (plain_releases hRest)
      · have hStop : ∀ p sig, status = .stopped p sig → sig = .SIGSTOP := by
          intro p sig hEq
          by_contra hSig
          exact hSignal ⟨p, sig, hEq, hSig⟩
        have hLeft := Unsigned.pass hStop _ _ _ hPass hRead
        refine ⟨hLeft.pending, ?_⟩
        exact (hOk.notices hStatus hStop hNoted).releases (plain_releases hLeft.plain)

/-- As long as signals come as said, every one is passed at once to the task that stopped for it. -/
theorem signals_delivered (h : (signals pid seed).Reach Ordinary x)
    (hOpen : x.1.machine.result = none) : Delivered x := by
  obtain ⟨_, hEven⟩ := even_handed h hOpen
  exact ⟨hEven.exact, fun p hOwed => absurd (hEven.even p) hOwed⟩

instance (x : World × List Notice) (l : Label) : Decidable (Ordinary x l) := by
  unfold Ordinary
  split
  · split
    · exact inferInstance
    · exact inferInstance
  · exact inferInstance

/-- The init, a thread and a forked process: the process and then the init get a signal. -/
def twoSignals : List Label :=
  [.spawn 1 2 false false, .report (.created 1 .fork 2), .report (.plain (.stopped 2 .SIGSTOP)),
   .report (.plain (.stopped 2 .SIGTERM)), .report (.plain (.stopped 1 .SIGUSR1))]

theorem signals_delivered_two : ∃ x,
    (signals 1 0).exec Ordinary (start 1 0 {}, []) twoSignals = some x ∧
      x.2 = [.release 2 none, .release 1 none, .stop 2 .SIGTERM, .release 2 (some .SIGTERM),
        .stop 1 .SIGUSR1, .release 1 (some .SIGUSR1)] ∧ Delivered x := by
  have hRun : ((signals 1 0).exec Ordinary (start 1 0 {}, []) twoSignals).map (fun x =>
      (x.1.machine.result.isNone, x.2)) = some (true, [.release 2 none, .release 1 none,
        .stop 2 .SIGTERM, .release 2 (some .SIGTERM), .stop 1 .SIGUSR1,
        .release 1 (some .SIGUSR1)]) := by decide +kernel
  obtain ⟨x, hExec, hx⟩ := Option.map_eq_some_iff.mp hRun
  simp only [Prod.mk.injEq, Option.isNone_iff_eq_none] at hx
  obtain ⟨hOpen, hNotices⟩ := hx
  exact ⟨x, hExec, hNotices,
    signals_delivered (System.reach_of_exec ⟨⟨{}, rfl⟩, rfl⟩ hExec) hOpen⟩

/-- A `SIGSTOP` for the init is taken for its attach stop. -/
def stopsInit : List Label := [.report (.plain (.stopped 1 .SIGSTOP))]

/-- The init creates a thread, to which a signal comes before its attach stop. -/
def signalsNewborn : List Label :=
  [.report (.enters 1 { origRax := BitVec.ofInt 64 SYS_clone, rdi := threadFlags }),
   .spawn 1 2 true true, .report (.created 1 .clone 2), .report (.plain (.stopped 2 .SIGTERM))]

theorem not_signals_delivered :
    (∃ x, (signals 1 0).exec System.free (start 1 0 {}, []) stopsInit = some x ∧
        x.1.machine.result = none ∧ ¬ Delivered x) ∧
      ∃ x, (signals 1 0).exec System.free (start 1 0 {}, []) signalsNewborn = some x ∧
        x.1.machine.result = none ∧ ¬ Delivered x := by
  constructor
  · have hRun : ((signals 1 0).exec System.free (start 1 0 {}, []) stopsInit).map (fun x =>
        (x.1.machine.result.isNone, x.2)) =
        some (true, [.stop 1 .SIGSTOP, .release 1 none]) := by decide +kernel
    obtain ⟨x, hExec, hx⟩ := Option.map_eq_some_iff.mp hRun
    simp only [Prod.mk.injEq, Option.isNone_iff_eq_none] at hx
    obtain ⟨hOpen, hNotices⟩ := hx
    refine ⟨x, hExec, hOpen, fun h => ?_⟩
    have hExact := h.exact [.stop 1 .SIGSTOP] 1 none [] hNotices
    cases hExact
  · have hRun : ((signals 1 0).exec System.free (start 1 0 {}, []) signalsNewborn).map (fun x =>
        (x.1.machine.result.isNone, x.2, x.1.machine.sv.runnable)) =
        some (true, [.release 1 none, .stop 2 .SIGTERM], []) := by decide +kernel
    obtain ⟨x, hExec, hx⟩ := Option.map_eq_some_iff.mp hRun
    simp only [Prod.mk.injEq, Option.isNone_iff_eq_none] at hx
    obtain ⟨hOpen, hNotices, hQueue⟩ := hx
    refine ⟨x, hExec, hOpen, fun h => ?_⟩
    have hQueued := h.served 2 (by rw [hNotices]; decide)
    rw [hQueue] at hQueued
    cases hQueued

end World

end Dtrun
