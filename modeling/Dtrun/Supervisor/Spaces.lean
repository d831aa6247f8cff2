import Dtrun.Supervisor.Groups
import Dtrun.Supervisor.Idling

/-! # Threads of the init and other processes

`scheduled` is read off the clone arguments noted for the creator, whoever that is, and the queues
of parked threads are keyed by a bare address. Both are right as long as those arguments are, no
other process creates threads, and no other process clears a word at an address that a thread is
parked on.
-/
namespace Dtrun
set_option autoImplicit false
open FiniteMap StateExcept Transition Supervisor

variable {k : Answers} {s s' v : Supervisor} {t : Tracees} {p q : Pid} {r : Report}
  {status : WaitStatus} {flow : Flow} {awaits awaits' : List Await}

/-- The word that a report is about: that of a call of `p`, or the one cleared when `p` ends. -/
def Supervisor.Means (s : Supervisor) (r : Report) (p : Pid) (addr : U64) : Prop :=
  (r.status = .ok (.ptraceSyscall p) ∧ s.isScheduled p = true ∧
    ∃ regs, r.answers.getregs p = .ok regs ∧ regs.rdi = addr) ∨
  (r.death = some p ∧ s.clearsNobody p = false ∧
    ∃ thread, s.threads.get p = some thread ∧ thread.childTid = addr)

theorem Supervisor.Unparked.mem {addr : U64} {m : Nat} (h : Unparked addr m s v)
    (hq : q ∈ s.blocked) (hNot : q ∉ v.blocked) : q ∈ (s.parkedOn addr).take m := by
  rw [h.blocked, Finset.mem_sdiff, List.mem_toFinset] at hNot
  by_contra hStays
  exact hNot ⟨hq, hStays⟩

theorem clearTidWake_head {thread : Thread} (hQueued : s.Queued) (hq : q ∈ s.blocked)
    (hNot : q ∉ (s.clearTidWake thread).blocked) :
    (thread.childTid ≠ 0 ∧ thread.flags &&& CLONE_CHILD_CLEARTID ≠ 0) ∧
      (s.parkedOn thread.childTid).head? = some q := by
  simp only [clearTidWake] at hNot
  split at hNot
  · rename_i hClears
    refine ⟨hClears, ?_⟩
    have hTaken := (wake_unparked hQueued thread.childTid 1).mem hq hNot
    cases hParked : s.parkedOn thread.childTid with
    | nil => simp [hParked] at hTaken
    | cons first rest =>
      have hOne : q ∈ (first :: rest).take 1 := by
        rw [hParked] at hTaken
        exact List.take_subset_take_left _ (by simp [wakeCount]) hTaken
      simpa [eq_comm] using hOne
  · exact absurd hq hNot

theorem onThreadExit_unblocked {record : Bool} (hQueued : s.Queued) (hq : q ∈ s.blocked)
    (hNot : q ∉ (s.onThreadExit p record).blocked) (hne : q ≠ p) :
    s.clearsNobody p = false ∧
      ∃ thread, s.threads.get p = some thread ∧ q ∈ s.parkedOn thread.childTid := by
  cases hLookup : s.threads.get p with
  | none =>
    simp only [onThreadExit, hLookup, forget] at hNot
    exact absurd (Finset.mem_erase_of_ne_of_mem hne hq) hNot
  | some thread =>
    have hErased : Queued { s with threads := s.threads.erase p } := hQueued.congr rfl rfl
    have hLeft : q ∉ (({ s with threads := s.threads.erase p } : Supervisor).clearTidWake
        thread).blocked := by
      intro hMem
      refine hNot ?_
      simp only [onThreadExit, hLookup]
      cases record with
      | true => exact Finset.mem_erase_of_ne_of_mem hne hMem
      | false => exact Finset.mem_erase_of_ne_of_mem hne hMem
    obtain ⟨⟨hTid, hFlag⟩, hHead⟩ := clearTidWake_head hErased hq hLeft
    have hFirst : (s.parkedOn thread.childTid).head? = some q := hHead
    refine ⟨?_, thread, rfl, List.mem_of_mem_head? hFirst⟩
    simp only [clearsNobody, hLookup, hFirst, Option.all_some, decide_eq_false_iff_not, not_or]
    exact ⟨hTid, hFlag, by simpa using hne⟩

/-- How a report takes a thread out of its queue that is not itself the one who is dead. -/
def Supervisor.Leaves (s : Supervisor) (r : Report) (q : Pid) : Prop :=
  ∃ p addr, s.Means r p addr ∧ q ∈ s.parkedOn addr

theorem Entered.unblocked {b : Bool} (hQueued : s.Queued) (h : Entered r.answers p s b v)
    (hStatus : r.status = .ok (.ptraceSyscall p)) (hq : q ∈ s.blocked) (hNot : q ∉ v.blocked) :
    s.Leaves r q := by
  cases h with
  | quiet hQuiet =>
    rw [hQuiet.blocked] at hNot
    exact absurd hq hNot
  | @wake _ regs vals hRegs hYes hQuiet =>
    rw [hQuiet.blocked] at hNot
    obtain ⟨m, hMoved⟩ := hQueued.wakes regs.rdi vals
    exact ⟨p, regs.rdi, .inl ⟨hStatus, hYes, regs, hRegs, rfl⟩,
      List.mem_of_mem_take (hMoved.mem hq hNot)⟩
  | wait hRegs hYes hQuiet =>
    rw [hQuiet.blocked] at hNot
    exact absurd (Finset.mem_insert_of_mem hq) hNot

theorem Picks.blocked (h : Picks k s v) : v.blocked = s.blocked := by
  cases h with
  | idle => rfl
  | run =>
    rw [scheduled_frame]
    rfl

theorem SyscallHandled.unblocked (hQueued : s.Queued) (h : SyscallHandled r.answers p s v)
    (hStatus : r.status = .ok (.ptraceSyscall p)) (hq : q ∈ s.blocked) (hNot : q ∉ v.blocked) :
    s.Leaves r q := by
  cases h with
  | concurrent _ hQuiet _ =>
    refine absurd ?_ hNot
    exact hQuiet.blocked ▸ hq
  | wait _ hEntered => exact hEntered.unblocked hQueued hStatus hq hNot
  | entry _ _ hEntered _ => exact hEntered.unblocked hQueued hStatus hq hNot
  | stay _ _ hEntered => exact hEntered.unblocked hQueued hStatus hq hNot
  | yield _ _ hQuiet hPicks =>
    refine absurd ?_ hNot
    rw [hPicks.blocked]
    exact hQuiet.blocked ▸ hq
  | pick _ _ hQuiet hPicks =>
    refine absurd ?_ hNot
    rw [hPicks.blocked, hQuiet.blocked]
    exact hq

theorem release_blocked (h : release k p s = .ok () v) : v.blocked = s.blocked := by
  rcases release_ok h with ⟨_, rfl⟩ | ⟨_, _, rfl⟩
  · rfl
  · rfl

theorem resumeTask_blocked (h : resumeTask k p s = .ok () v) : v.blocked = s.blocked := by
  rcases resumeTask_ok h with ⟨_, rfl, _⟩ | ⟨_, _, rfl⟩
  · rfl
  · rfl

theorem Registered.blocked {info : CloneInfo} (h : Registered k p info s v) :
    v.blocked = s.blocked := by
  cases h with
  | again => rfl
  | released _ _ hRelease hQuiet =>
    have hu := release_blocked hRelease
    exact hQuiet.blocked.trans hu
  | expected _ _ hQuiet => exact hQuiet.blocked

theorem StopHandled.blocked {sig : Signal} (h : StopHandled k p sig s v) :
    v.blocked = s.blocked := by
  cases h with
  | current => rfl
  | attached _ _ _ hRelease =>
    have hu := release_blocked hRelease
    exact hu
  | early => rfl
  | again => rfl
  | signal => rfl
  | noted _ _ _ hQuiet => exact hQuiet.blocked

theorem Dispatched.unblocked (hQueued : s.Queued) (h : Dispatched r.answers s status flow v)
    (hStatus : r.status = .ok status) (hq : q ∈ s.blocked) (hNot : q ∉ v.blocked)
    (hDeath : status.death ≠ some q) : s.Leaves r q := by
  have same (hSame : v.blocked = s.blocked) : s.Leaves r q := absurd (hSame ▸ hq) hNot
  cases h with
  | syscall hHandled => exact hHandled.unblocked hQueued hStatus hq hNot
  | clone _ _ hRegister hFlow =>
    have hv := hRegister.blocked
    rcases hFlow with ⟨_, _, rfl⟩ | ⟨_, _, hResume⟩
    · exact same hv
    · exact same ((resumeTask_blocked hResume).trans hv)
  | dying => exact same rfl
  | event _ _ hResume => exact same (resumeTask_blocked hResume)
  | stopped hStop => exact same hStop.blocked
  | finished _ hQuiet => exact same hQuiet.blocked
  | @died status p v hDied _ hExit =>
    have hne : q ≠ p := fun hEq => hDeath (hEq ▸ hDied)
    have left (record : Bool) (hLeft : q ∉ (s.onThreadExit p record).blocked) : s.Leaves r q := by
      obtain ⟨hClears, thread, hLookup, hParked⟩ := onThreadExit_unblocked hQueued hq hLeft hne
      refine ⟨p, thread.childTid, .inr ⟨?_, hClears, thread, hLookup, rfl⟩, hParked⟩
      rw [Report.death, hStatus]
      exact hDied
    rcases dispatchExit_ok hExit with ⟨_, _, hPicks⟩ | ⟨_, rfl⟩
    · rw [hPicks.blocked] at hNot
      exact left true hNot
    · exact left _ hNot
  | idle => exact same rfl

theorem RunsOn.blocked (h : RunsOn k s v) : v.blocked = s.blocked := by
  rcases h with ⟨_, hPicks⟩ | ⟨_, rfl⟩
  · exact hPicks.blocked
  · rfl

theorem Passed.unblocked (hQueued : s.Queued)
    (h : Passed r.answers s awaits status (.wait awaits') v) (hStatus : r.status = .ok status)
    (hq : q ∈ s.blocked) (hNot : q ∉ v.blocked) (hDeath : status.death ≠ some q) :
    s.Leaves r q := by
  cases h with
  | next hDispatched hTail =>
    rw [hTail.blocked] at hNot
    exact hDispatched.unblocked hQueued hStatus hq hNot hDeath
  | again _ hDispatched => exact hDispatched.unblocked hQueued hStatus hq hNot hDeath
  | await hDispatched => exact hDispatched.unblocked hQueued hStatus hq hNot hDeath
  | attached hRelease hResume hTail =>
    have hv := (resumeTask_blocked hResume).trans (release_blocked hRelease)
    refine absurd ?_ hNot
    rcases hTail with ⟨_, hTail⟩ | ⟨_, rfl⟩
    · rw [hTail.blocked, hv]
      exact hq
    · rw [hv]
      exact hq

theorem Registered.lookup_self {info : CloneInfo} (h : Registered k p info s v)
    (hFresh : s.registered p = false) : v.threads.get p = some ⟨s.vtidNext, info.childTid, info.flags,
      info.flags &&& CLONE_THREAD ≠ 0⟩ := by
  have entered {thread : Thread} {u : Supervisor} (hThreads : u.threads = s.threads.insert p thread) :
      u.threads.get p = some thread := by
    rw [hThreads, Map.get_insert_self]
  cases h with
  | again hKnown =>
    rw [hFresh] at hKnown
    cases hKnown
  | released _ _ hRelease hQuiet =>
    exact entered (hQuiet.threads.trans (release_frame hRelease).1)
  | expected _ _ hQuiet => exact entered hQuiet.threads

theorem Passed.lookup_fresh {sig : Signal} {event : Event} {info : CloneInfo}
    (h : Passed k s awaits (.ptraceEvent p sig event) (.wait awaits') s')
    (hCreates : event.creates = true) (hChild : k.getevent p = .ok q)
    (hFresh : s.registered q = false) (hInfo : (s.clonePending.get p).getD {} = info) :
    s'.threads.get q = some ⟨s.vtidNext, info.childTid, info.flags,
      info.flags &&& CLONE_THREAD ≠ 0⟩ := by
  subst hInfo
  have dispatched {flow : Flow} {v : Supervisor}
      (h : Dispatched k s (.ptraceEvent p sig event) flow v) : v.threads.get q = some ⟨s.vtidNext,
        ((s.clonePending.get p).getD {}).childTid, ((s.clonePending.get p).getD {}).flags,
        ((s.clonePending.get p).getD {}).flags &&& CLONE_THREAD ≠ 0⟩ := by
    cases h with
    | clone _ hNamed hRegister hFlow =>
      cases hNamed.symm.trans hChild
      have hv := hRegister.lookup_self hFresh
      rcases hFlow with ⟨_, _, rfl⟩ | ⟨_, _, hResume⟩
      · exact hv
      · rw [resumeTask_threads hResume]
        exact hv
    | dying => cases hCreates
    | event hNot =>
      rw [hCreates] at hNot
      cases hNot
    | finished hDeath => cases hDeath
    | died hDeath => cases hDeath
    | idle hIdle =>
      rcases hIdle with ⟨_, hEq⟩ | hEq
      · cases hEq
      · cases hEq
  cases h with
  | next hDispatched hTail =>
    rw [hTail.threads]
    exact dispatched hDispatched
  | again _ hDispatched => exact dispatched hDispatched
  | await hDispatched => exact dispatched hDispatched

theorem Passed.isScheduled_fresh {sig : Signal} {event : Event}
    (h : Passed k s awaits (.ptraceEvent p sig event) (.wait awaits') s')
    (hCreates : event.creates = true) (hChild : k.getevent p = .ok q)
    (hFresh : s.registered q = false) : s'.isScheduled q =
      decide (((s.clonePending.get p).getD {}).flags &&& CLONE_THREAD ≠ 0) := by
  rw [isScheduled, h.lookup_fresh hCreates hChild hFresh rfl]

def Report.announces (r : Report) : Option (Pid × Pid) :=
  match r.status with
  | .ok (.ptraceEvent p _ event) =>
    if event.creates then r.answers.getevent p |>.toOption.map fun c => (p, c) else none
  | _ => none

/-- The arguments noted for `p` make its next child a thread. -/
def Supervisor.notesThread (s : Supervisor) (p : Pid) : Prop :=
  ((s.clonePending.get p).getD {}).flags &&& CLONE_THREAD ≠ 0

instance (s : Supervisor) (p : Pid) : Decidable (s.notesThread p) :=
  inferInstanceAs (Decidable (_ ≠ _))

/-- The arguments noted for a thread of the init tell whether its child is another one, and for
anybody else they name no thread. -/
def Foretold (pid : Pid) (s : Supervisor) (t : Tracees) (r : Report) : Prop :=
  ∀ e ∈ r.announces, (t.group e.2).isSome = true →
    if t.group e.1 = some pid then (s.notesThread e.1 ↔ t.group e.2 = t.group e.1)
    else ¬ s.notesThread e.1

/-- Who dies outside the init's memory clears no word on whose address a thread is parked first. -/
def ClearsOwn (pid : Pid) (s : Supervisor) (t : Tracees) (r : Report) : Prop :=
  ∀ p ∈ r.death, t.space p = t.space pid ∨ s.clearsNobody p = true

instance (pid : Pid) (s : Supervisor) (t : Tracees) (r : Report) : Decidable (Foretold pid s t r) := by
  unfold Foretold
  infer_instance

instance (pid : Pid) (s : Supervisor) (t : Tracees) (r : Report) :
    Decidable (ClearsOwn pid s t r) := by
  unfold ClearsOwn
  infer_instance

namespace World

/-- The condition on a step. -/
def Apart (pid : Pid) (w : World) (l : Label) : Prop :=
  w.Unheld l ∧ match l with
    | .report r => Foretold pid w.machine.sv w.tracees r ∧ ClearsOwn pid w.machine.sv w.tracees r
    | _ => True

instance (pid : Pid) (w : World) : (l : Label) → Decidable (Apart pid w l)
  | .spawn _ _ _ _ => inferInstanceAs (Decidable (_ ∧ True))
  | .exec _ => .isTrue ⟨trivial, trivial⟩
  | .report _ => inferInstanceAs (Decidable (True ∧ _ ∧ _))

/-- Whoever a report takes out of a queue was parked on the word that the report is about, in the
memory of the task that it is about. -/
def WakesOwn (w : World) (r : Report) (w' : World) : Prop :=
  ∀ q ∈ w.machine.sv.blocked, q ∉ w'.machine.sv.blocked → r.death ≠ some q →
    ∃ p addr x, w.machine.sv.Means r p addr ∧ q ∈ w.machine.sv.parkedOn addr ∧
      w.tracees.space q = some x ∧ w.tracees.space p = some x

/-- Threads of the init and other processes are told apart. -/
structure Separate (pid : Pid) (w : World) : Prop where
  scheduled : ∀ q g, w.machine.sv.registered q = true → w.tracees.group q = some g →
    (w.machine.sv.isScheduled q = true ↔ g = pid)
  queues : ∀ addr q q', q ∈ w.machine.sv.parkedOn addr → q' ∈ w.machine.sv.parkedOn addr →
    ∃ x, w.tracees.space q = some x ∧ w.tracees.space q' = some x
  wakes : ∀ r w', Apart pid w (.report r) → w.observe r = some w' → w'.machine.result = none →
    WakesOwn w r w'

variable {pid : Pid} {seed : U64} {w w' : World}

theorem grouped (h : (system pid seed).Reach (Apart pid) w) (hOpen : w.machine.result = none)
    (hKnown : w.machine.sv.registered q = true) {g : Pid} (hGroup : w.tracees.group q = some g) :
    w.machine.sv.isScheduled q = true ↔ g = pid := by
  refine System.Reach.invariant (I := fun w => w.machine.result = none → ∀ q g,
    w.machine.sv.registered q = true → w.tracees.group q = some g →
      (w.machine.sv.isScheduled q = true ↔ g = pid)) ?_ ?_ h hOpen q g hKnown hGroup
  · rintro _ ⟨k, rfl⟩ hOpen q g _ hGroup
    obtain ⟨_, hPicks⟩ := Machine.start_wait hOpen
    have hSame := isScheduled_of_threads hPicks.threads q
    rw [start, Tracees.group_after] at hGroup
    simp only [Tracees.group, Tracees.task, alone, Map.get_singleton] at hGroup
    split at hGroup
    · rename_i hEq
      cases hGroup
      refine ⟨fun _ => rfl, fun _ => hSame.trans ?_⟩
      rw [hEq]
      simp [Machine.fresh, isScheduled, Map.get_singleton]
    · cases hGroup
  · intro w l w' hReach hGrouped hOk hStep hOpen q g hKnown hGroup
    have hWorld : (system pid seed).Reach Unheld w := hReach.mono fun _ _ hOk => hOk.1
    cases l with
    | spawn p c thread vm =>
      have hMachine := spawn_machine hStep
      rw [hMachine] at hOpen hKnown ⊢
      rw [spawn_group hStep] at hGroup
      split at hGroup
      · rename_i hEq
        obtain ⟨_, _, hFresh, _⟩ := spawn_eq_some hStep
        have hGone : w.tracees.phase c = none := by simp [Tracees.phase, hFresh]
        obtain ⟨a, ha, hChild⟩ := (placed hWorld hOpen).absent q hKnown (hEq ▸ hGone)
        exact absurd (hChild.trans hEq) (hOk.1.2.1 a ha).1
      · exact hGrouped hOpen q g hKnown hGroup
    | exec p =>
      have hMachine := exec_machine hStep
      rw [hMachine] at hOpen hKnown ⊢
      rw [exec_group hStep] at hGroup
      exact hGrouped hOpen q g hKnown hGroup
    | report r =>
      obtain ⟨hRunning, hAllows, hMachine, hTracees⟩ := observe_eq_some hStep
      rw [hMachine] at hOpen hKnown ⊢
      rw [hTracees, Tracees.group_after, Tracees.group_observe] at hGroup
      split at hGroup
      · cases hGroup
      · rename_i hAlive
        obtain ⟨status, hStatus, hPassed⟩ := Machine.step_wait hRunning hOpen
        rcases hPassed.lookup q with hSame | hDeath | ⟨hFresh, p, sig, event, rfl, hCreates, hChild⟩
        · rw [registered, hSame] at hKnown
          rw [isScheduled, hSame]
          exact hGrouped hRunning q g hKnown hGroup
        · refine absurd ?_ hAlive
          rw [Report.death, hStatus]
          exact hDeath
        · have hNew := hPassed.isScheduled_fresh hCreates hChild hFresh
          have hEvent : (p, q) ∈ r.announces := by
            simp [Report.announces, hStatus, hCreates, hChild, Except.toOption]
          have hTold := hOk.2.1 (p, q) hEvent (by simp [hGroup])
          have hCloned := Tracees.allows_creates hStatus hCreates hChild hAllows
          obtain ⟨hInit, hFamily⟩ := family hWorld hRunning hCloned
          rw [hNew, decide_eq_true_eq]
          split at hTold
          · rename_i hOwn
            rw [hOwn, hGroup, Option.some.injEq] at hTold
            exact hTold
          · rename_i hOther
            refine ⟨fun hNamed => absurd hNamed hTold, ?_⟩
            rintro rfl
            rcases hFamily g hGroup with hEq | hEq
            · exact absurd hEq.symm hInit
            · exact absurd hEq hOther

/-- Every scheduled thread that lives has the init's memory. -/
theorem scheduled_space (h : (system pid seed).Reach (Apart pid) w)
    (hOpen : w.machine.result = none) (hYes : w.machine.sv.isScheduled q = true)
    (hLives : w.tracees.phase q ≠ none) :
    ∃ x, w.tracees.space q = some x ∧ w.tracees.space pid = some x := by
  have hPhase : (w.tracees.task q).isSome = true := by
    cases hTask : w.tracees.task q with
    | none => simp [Tracees.phase, hTask] at hLives
    | some x => rfl
  obtain ⟨x, hTask⟩ := Option.isSome_iff_exists.mp hPhase
  have hGroup : w.tracees.group q = some x.group := by simp [Tracees.group, hTask]
  have hOwn := (grouped h hOpen (registered_of_isScheduled hYes) hGroup).mp hYes
  have hSpace : w.tracees.space q = some x.space := by simp [Tracees.space, hTask]
  exact ⟨x.space, hSpace, (group_space h hOpen (hOwn ▸ hGroup)).symm.trans hSpace⟩

/-- As long as the arguments noted are right, no other process creates threads and none clears a
word where a thread is parked, threads are told apart from other processes. -/
theorem separate (h : (system pid seed).Reach (Apart pid) w) (hOpen : w.machine.result = none) :
    Separate pid w := by
  have hParked := parked h hOpen
  have space {addr : U64} {q : Pid} (hq : q ∈ w.machine.sv.parkedOn addr) :
      ∃ x, w.tracees.space q = some x ∧ w.tracees.space pid = some x := by
    have hBlocked := hParked.queued.mem_blocked hq
    exact scheduled_space h hOpen (hParked.scheduled q hBlocked) (hParked.still q hBlocked).ne_none
  refine ⟨fun q g hKnown hGroup => grouped h hOpen hKnown hGroup, fun addr q q' hq hq' => ?_,
    fun r w' hOk hStep hNext q hq hNot hDeath => ?_⟩
  · obtain ⟨x, hSpace, hInit⟩ := space hq
    obtain ⟨x', hSpace', hInit'⟩ := space hq'
    cases hInit.symm.trans hInit'
    exact ⟨x, hSpace, hSpace'⟩
  · obtain ⟨_, hAllows, hMachine, _⟩ := observe_eq_some hStep
    rw [hMachine] at hNext hNot
    obtain ⟨status, hStatus, hPassed⟩ := Machine.step_wait hOpen hNext
    have hQueued : Queued { w.machine.sv with effects := [] } := hParked.queued.congr rfl rfl
    have hReport : r.death = status.death := by rw [Report.death, hStatus]
    obtain ⟨p, addr, hMeans, hMem⟩ :=
      hPassed.unblocked hQueued hStatus hq hNot fun hDied => hDeath (hReport.trans hDied)
    have hMem' : q ∈ w.machine.sv.parkedOn addr := hMem
    obtain ⟨x, hSpace, hInit⟩ := space hMem'
    refine ⟨p, addr, x, hMeans, hMem', hSpace, ?_⟩
    rcases hMeans with ⟨hCall, hYes, _⟩ | ⟨hDied, hClears, _⟩
    · obtain ⟨y, hCaller, hSame⟩ := scheduled_space h hOpen hYes (by
        rw [Tracees.allows_syscall hCall hAllows]
        simp)
      cases hInit.symm.trans hSame
      exact hCaller
    · have hClears' : w.machine.sv.clearsNobody p = false := hClears
      rcases hOk.2.2 p hDied with hSame | hNobody
      · exact hSame.trans hInit
      · rw [hClears'] at hNobody
        cases hNobody

theorem separate_parked : ∃ w,
    (system 1 0).exec (Apart 1) (start 1 0 {}) (newThread ++ threadWaits ++ initForks) = some w ∧
      w.machine.sv.blocked = {2} ∧ Separate 1 w := by
  have hRun : ((system 1 0).exec (Apart 1) (start 1 0 {})
      (newThread ++ threadWaits ++ initForks)).map (fun w =>
        (w.machine.result.isNone, w.machine.sv.blocked)) = some (true, {2}) := by decide +kernel
  obtain ⟨w, hExec, hw⟩ := Option.map_eq_some_iff.mp hRun
  simp only [Prod.mk.injEq, Option.isNone_iff_eq_none] at hw
  obtain ⟨hOpen, hBlocked⟩ := hw
  exact ⟨w, hExec, hBlocked, separate (System.reach_of_exec ⟨{}, rfl⟩ hExec) hOpen⟩

def otherThread : List Label :=
  initForks ++ [.report (.enters 3 { origRax := 56, rdi := threadFlags }),
    .spawn 3 4 true true, .report (.created 3 .clone 4)]

/-- The init creates thread 2 with a `clone3` whose arguments cannot be read. -/
def unread : List Label :=
  [.report (.enters 1 { origRax := 435 }), .spawn 1 2 true true, .report (.created 1 .clone 2)]

/-- Thread 2 waits at an address, and the init forks 3 with a word to clear at the same one. -/
def sameAddress : List Label :=
  newThread ++ threadWaits ++
    [.report (.enters 1 { origRax := 56, rdi := CLONE_CHILD_CLEARTID, r10 := 4096 })] ++ initForks

theorem not_separate :
    (∃ w, (system 1 0).exec Unheld (start 1 0 {}) otherThread = some w ∧
      w.machine.result = none ∧ ¬ Separate 1 w) ∧
    (∃ w, (system 1 0).exec Unheld (start 1 0 {}) unread = some w ∧
      w.machine.result = none ∧ ¬ Separate 1 w) ∧
    ∃ w w' r, (system 1 0).exec Unheld (start 1 0 {}) sameAddress = some w ∧
      w.observe r = some w' ∧ w'.machine.result = none ∧ ¬ WakesOwn w r w' := by
  refine ⟨?_, ?_, ?_⟩
  · have hRun : ((system 1 0).exec Unheld (start 1 0 {}) otherThread).map (fun w =>
        (w.machine.result.isNone, w.machine.sv.isScheduled 4, w.tracees.group 4)) =
          some (true, true, some 3) := by decide +kernel
    obtain ⟨w, hExec, hw⟩ := Option.map_eq_some_iff.mp hRun
    simp only [Prod.mk.injEq, Option.isNone_iff_eq_none] at hw
    obtain ⟨hOpen, hYes, hGroup⟩ := hw
    refine ⟨w, hExec, hOpen, fun h => ?_⟩
    have hInit := (h.scheduled 4 3 (registered_of_isScheduled hYes) hGroup).mp hYes
    cases hInit
  · have hRun : ((system 1 0).exec Unheld (start 1 0 {}) unread).map (fun w =>
        (w.machine.result.isNone, w.machine.sv.registered 2, w.machine.sv.isScheduled 2,
          w.tracees.group 2)) = some (true, true, false, some 1) := by decide +kernel
    obtain ⟨w, hExec, hw⟩ := Option.map_eq_some_iff.mp hRun
    simp only [Prod.mk.injEq, Option.isNone_iff_eq_none] at hw
    obtain ⟨hOpen, hKnown, hNot, hGroup⟩ := hw
    refine ⟨w, hExec, hOpen, fun h => ?_⟩
    rw [(h.scheduled 2 1 hKnown hGroup).mpr rfl] at hNot
    cases hNot
  · have hRun : ((system 1 0).exec Unheld (start 1 0 {}) sameAddress).bind (fun w =>
        (w.observe (.plain (.exited 3 0))).map fun w' =>
          ((decide (2 ∈ w.machine.sv.blocked), decide (2 ∈ w'.machine.sv.blocked),
            w'.machine.result.isNone), w.tracees.space 2, w.tracees.space 3)) =
          some ((true, false, true), some 0, some 2) := by decide +kernel
    obtain ⟨w, hExec, hw⟩ := Option.bind_eq_some_iff.mp hRun
    obtain ⟨w', hStep, hw'⟩ := Option.map_eq_some_iff.mp hw
    simp only [Prod.mk.injEq, decide_eq_true_eq, decide_eq_false_iff_not,
      Option.isNone_iff_eq_none] at hw'
    obtain ⟨⟨hParked, hLeft, hNext⟩, hSpace, hOther⟩ := hw'
    refine ⟨w, w', _, hExec, hStep, hNext, fun h => ?_⟩
    obtain ⟨p, addr, x, hMeans, _, hq, hp⟩ := h 2 hParked hLeft (by decide)
    rcases hMeans with ⟨hCall, _⟩ | ⟨hDied, _⟩
    · cases hCall
    · cases hDied
      rw [hSpace] at hq
      rw [hOther] at hp
      cases hq
      cases hp

end World

end Dtrun
